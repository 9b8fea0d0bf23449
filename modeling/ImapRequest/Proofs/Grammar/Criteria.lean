import ImapRequest.Proofs.Grammar.Search

/-!
# The grammar of search criteria

```
search = ["CHARSET" SP astring SP] key *(SP key)
```

All keys of a command have to match together.  The first one is read like the others, though its
keyword is looked at before, to see whether it names a character set.

* `SearchKey.Criteria` : the grammar, with the key that each word of it means;
* `SearchKey.criteriaContinue_separates` : what comes between keys, and behind the last one;
* `SearchKey.grammar_exact` : keys at any level and all keys of a command are decoded exactly.
-/

namespace ImapRequest

theorem LineEnds.keyEnds {s : List UInt8} (h : LineEnds s) : KeyEnds s :=
  fun b hb => Or.inr (Or.inr (h b hb))

namespace SearchKey

/-! ### The grammar -/

/-- The octets that spell all keys of a command, in a character set that may be named before
them. -/
inductive Criteria (ctx : Context) : List UInt8 → Option Charset × SearchKey → Prop
  | keys {w : List UInt8} {key : SearchKey} (hkeys : Conjoined (Derives ctx 1) w key) :
    Criteria ctx w (none, key)
  | inCharset {u v w : List UInt8} {charset : Charset} {key : SearchKey}
    (hword : Octet.sameLetters u (Octet.ofText "CHARSET") = true)
    (hcharset : Charset.Spelled ctx v charset)
    (hkeys : Conjoined (Derives { ctx with charset } 1) w key) :
    Criteria ctx (u ++ Octet.sp :: (v ++ Octet.sp :: w)) (some charset, key)

/-- What may be between the last key and what follows it: nothing, or the space in front of a line
break, where that is accepted. -/
def Trailing (leniency : Leniency) (t s : List UInt8) : Prop :=
  t = [] ∨ t = [Octet.sp] ∧ leniency.trailingSpace = true ∧
    ∃ b ∈ s.head?, Octet.isLineBreak b = true

variable {ctx : Context}

/-! ### Behind the keys -/

/-- Where no key follows: at something that is no space, or at the space in front of a line
break. -/
def CriteriaEnd (leniency : Leniency) (t s : List UInt8) : Prop :=
  t = [] ∧ s.head? ≠ some Octet.sp ∨
    t = [Octet.sp] ∧ leniency.trailingSpace = true ∧ ∃ b ∈ s.head?, Octet.isLineBreak b = true

theorem trailing_of_criteriaEnd {leniency : Leniency} {t s : List UInt8}
    (h : CriteriaEnd leniency t s) : Trailing leniency t s := h.imp_left And.left

theorem criteriaEnd_of_trailing {leniency : Leniency} {t s : List UInt8}
    (h : Trailing leniency t s) (hs : LineEnds s) : CriteriaEnd leniency t s := by
  refine h.imp_left fun ht => ⟨ht, fun hsp => ?_⟩
  exact absurd (hs _ hsp) (by decide)

/-- Whatever stands behind the last key ends it. -/
theorem keyEnds_of_trailing {leniency : Leniency} {t s : List UInt8}
    (h : Trailing leniency t s) (hs : LineEnds s) : KeyEnds (t ++ s) := by
  rcases h with rfl | ⟨rfl, -, -⟩
  · exact hs.keyEnds
  · exact keyEnds_sp s

/-- Keys go on with a space in front of anything but a line break, or end. -/
theorem criteriaContinue_cases {leniency : Leniency} {c d : Cursor} {announced : Bool}
    (hc : c.Steady) (h : criteriaContinue leniency c = (.ok announced, d)) :
    announced = true ∧ c.Reaches [Octet.sp] d ∨
      announced = false ∧ ∃ t, CriteriaEnd leniency t d.rest ∧ c.Reaches t d := by
  by_cases hsp : c.rest.head? = some Octet.sp
  · obtain ⟨s, hrest⟩ := List.head?_eq_some_iff.1 hsp
    cases s with
    | nil =>
      obtain ⟨io, hio⟩ := criteriaContinue_of_last leniency hc hrest
      simp [hio] at h
    | cons b s =>
      have hreaches : c.Reaches [Octet.sp] (c.advance 1) := .front (w := [Octet.sp]) hrest
      rw [criteriaContinue_apply_of_sp hc hrest] at h
      split at h
      · rename_i hbreak
        split at h
        · rename_i htrailing
          obtain ⟨rfl, rfl⟩ : false = announced ∧ c.advance 1 = d := by
            simpa [Decoder.pure_apply] using h
          refine Or.inr ⟨rfl, [Octet.sp], Or.inr ⟨rfl, htrailing, b, ?_, hbreak⟩, hreaches⟩
          rw [Cursor.rest_advance, hrest]
          rfl
        · simp [Decoder.reject, Decoder.fail] at h
      · obtain ⟨rfl, rfl⟩ : true = announced ∧ c.advance 1 = d := by
          simpa [Decoder.pure_apply] using h
        exact Or.inl ⟨rfl, hreaches⟩
  · rw [criteriaContinue_of_ne hc hsp] at h
    obtain ⟨rfl, rfl⟩ : false = announced ∧ c = d := by simpa using h
    exact Or.inr ⟨rfl, [], Or.inl ⟨rfl, hsp⟩, .refl c⟩

theorem criteriaContinue_separates (leniency : Leniency) :
    Decoder.Separates (criteriaContinue leniency) (CriteriaEnd leniency) where
  advances := criteriaContinue_advances leniency
  forward := criteriaContinue_forward leniency
  rest_of_true hc hrun := by
    obtain ⟨-, hreaches⟩ | ⟨h, -⟩ := criteriaContinue_cases hc hrun
    · exact hreaches
    · cases h
  rest_of_false hc hrun := by
    obtain ⟨h, -⟩ | ⟨-, hend⟩ := criteriaContinue_cases hc hrun
    · cases h
    · exact hend
  true_of_rest hc hrest hb := by
    rw [criteriaContinue_apply_of_sp hc hrest, if_neg (by simp [hb])]
    rfl
  false_of_rest {c t s} hc ht hrest := by
    rcases ht with ⟨rfl, hsp⟩ | ⟨rfl, htrailing, b, hb, hbreak⟩
    · exact criteriaContinue_of_ne hc (hrest ▸ hsp)
    · obtain ⟨u, rfl⟩ := List.head?_eq_some_iff.1 hb
      rw [criteriaContinue_apply_of_sp hc hrest, if_pos hbreak, if_pos htrailing]
      rfl

/-- All keys of a command, where their character set is known. -/
def decodeKeys (ctx : Context) : Decoder SearchKey := do
  decodeConjunction ctx (← decode ctx 1)

theorem decode_forward (ctx : Context) (level : Nat) : Decoder.Forward (decode ctx level) :=
  decodeWithin_forward ctx _

section Keys

variable {c e : Cursor} {key : SearchKey}

theorem decodeConjunction_sound {first : SearchKey} (hc : c.Steady)
    (hrun : decodeConjunction ctx first c = (.ok key, e)) :
    ∃ (parts : List (Part SearchKey)) (t : List UInt8),
      (∀ p ∈ parts, Derives ctx 1 p.octets p.value) ∧
      key.Together (first :: parts.map Part.value) ∧ Trailing ctx.leniency t e.rest ∧
      c.Reaches (Part.spaced parts ++ t) e := by
  rw [decodeConjunction] at hrun
  obtain ⟨more, hmany, rfl⟩ := Decoder.exists_of_map hrun
  obtain ⟨parts, t, hparts, rfl, ht, hreaches⟩ := Decoder.many_sound
    (criteriaContinue_separates ctx.leniency) (decode_forward ctx 1) (decode_recognizes ctx 1) _ hc
    (Nat.lt_succ_self _) hmany
  exact ⟨parts, t, hparts, together_conjunction _, trailing_of_criteriaEnd ht, hreaches⟩

theorem decodeKeys_sound (hc : c.Steady) (hrun : decodeKeys ctx c = (.ok key, e)) :
    ∃ w t, Conjoined (Derives ctx 1) w key ∧ Trailing ctx.leniency t e.rest ∧
      c.Reaches (w ++ t) e := by
  rw [decodeKeys] at hrun
  obtain ⟨first, d, hfirst, hrun⟩ := Decoder.exists_of_bind hrun
  obtain ⟨u, hu, hcd⟩ := (decode_recognizes ctx 1 c).sound hc hfirst
  obtain ⟨parts, t, hparts, htogether, ht, hde⟩ := decodeConjunction_sound (hcd.steady hc) hrun
  refine ⟨u ++ Part.spaced parts, t, ⟨⟨⟨u, first⟩, parts⟩, List.forall_mem_cons.2 ⟨hu, hparts⟩,
    htogether, rfl⟩, ht, ?_⟩
  rw [List.append_assoc]
  exact hcd.trans hde

theorem decodeKeys_complete {w t s : List UInt8} (hc : c.Listens)
    (hw : Conjoined (Derives ctx 1) w key) (ht : Trailing ctx.leniency t s) (hs : LineEnds s)
    (hrest : c.rest = w ++ (t ++ s)) :
    ∃ e, decodeKeys ctx c = (.ok key, e) ∧ c.Reaches (w ++ t) e := by
  obtain ⟨⟨first, parts⟩, hparts, htogether, rfl⟩ := hw
  obtain ⟨hfirst, hparts⟩ := List.forall_mem_cons.1 hparts
  have hend := keyEnds_of_trailing ht hs
  rw [Part.joined, List.append_assoc] at hrest
  obtain ⟨d, hrun, hcd, hd⟩ := (decode_recognizes ctx 1 c).complete hc hfirst
    (Part.spaced_ends keyEnds_sp parts hend) hrest
  obtain ⟨e, hmany, hde, -⟩ := Decoder.many_complete (criteriaContinue_separates ctx.leniency)
    (decode_forward ctx 1) (decode_recognizes ctx 1) (fun w key h => h.not_isLineBreak) keyEnds_sp
    (criteriaEnd_of_trailing ht hs) hend parts hd hparts (hcd.rest_eq_of hrest)
  refine ⟨e, ?_, ?_⟩
  · have hkey : conjunction ⟨first.value, parts.map Part.value⟩ = key :=
      conjunction_of_together htogether
    rw [decodeKeys, Decoder.bind_of_ok hrun, decodeConjunction, Decoder.bind_of_ok hmany, hkey]
    rfl
  · rw [Part.joined, List.append_assoc]
    exact hcd.trans hde

/-! ### The first key of a command -/

theorem decode_of_letter {b : UInt8} {s : List UInt8} (hc : c.Steady) (hrest : c.rest = b :: s)
    (hb : Octet.isLetter b = true) :
    decode ctx 1 c = (do decodeNamed ctx (decode ctx 2) (← Decoder.keyword)) c :=
  decodeWithin_of_letter (maxLevel - 1) hc hrest hb

/-- What was read as a keyword spells it, and starts with a letter if the keyword does. -/
theorem rest_of_keyword {d : Cursor} {word : String} (hc : c.Steady)
    (h : Decoder.keyword c = (.ok word, d))
    (hword : (Octet.ofText word).head?.any Octet.isLetter = true) :
    ∃ b u s, Octet.sameLetters (b :: u) (Octet.ofText word) = true ∧ c.Reaches (b :: u) d ∧
      c.rest = b :: s ∧ Octet.isLetter b = true := by
  obtain ⟨u, ⟨-, hall, rfl⟩, hreaches⟩ := (Decoder.keyword_recognizes c).sound hc h
  have hu := Decoder.sameLetters_of_keyword hall
  obtain ⟨b, v, rfl, hb⟩ := exists_letter hword hu
  exact ⟨b, v, _, hu, hreaches, hreaches.rest_eq, hb⟩

/-- No key has the keyword that names a character set. -/
theorem decode_of_charset {d : Cursor} (hc : c.Steady)
    (h : Decoder.keyword c = (.ok "CHARSET", d)) :
    decode ctx 1 c = (.error (.rejected (.unknownSearchKey "CHARSET")), d) := by
  obtain ⟨b, u, s, -, -, hrest, hb⟩ := rest_of_keyword hc h rfl
  have hnone : forms.lookup "CHARSET" = none := rfl
  rw [decode_of_letter hc hrest hb, Decoder.bind_of_ok h, decodeNamed, hnone]
  rfl

theorem keyword_ne_of_decode (hc : c.Steady) (h : decode ctx 1 c = (.ok key, e)) (d : Cursor) :
    Decoder.keyword c ≠ (.ok "CHARSET", d) := by
  intro hkeyword
  simp [decode_of_charset hc hkeyword] at h

/-- A key that is not the name of a character set is decoded like any other, though its keyword is
read first. -/
theorem decodeCriteria_of_ne (hc : c.Steady) (h : ∀ d, Decoder.keyword c ≠ (.ok "CHARSET", d)) :
    decodeCriteria ctx c = (do return (none, ← decodeKeys ctx)) c := by
  rw [decodeKeys, bind_assoc]
  cases hrest : c.rest with
  | nil =>
    obtain ⟨io, hio⟩ := Decoder.peek_of_nil hrest
    have hdecode : decode ctx 1 c = (.error (.io io), c) := by
      change decodeWithin ctx (maxLevel - 1 + 1) c = _
      rw [decodeWithin, Decoder.bind_of_error hio]
    rw [decodeCriteria, Decoder.bind_of_error hio, Decoder.bind_of_error hdecode]
  | cons b s =>
    rw [decodeCriteria, Decoder.bind_of_ok (Decoder.peek_of_rest hc hrest)]
    by_cases hb : Octet.isLetter b = true
    · rw [if_pos hb, Decoder.bind_apply (decode ctx 1), decode_of_letter hc hrest hb,
        ← Decoder.bind_apply, bind_assoc]
      refine Decoder.bind_congr_at fun word d hword => ?_
      have hne : word ≠ "CHARSET" := by
        rintro rfl
        exact h d hword
      rw [if_neg hne]
    · rw [if_neg hb]

/-- The name of a character set between spaces. -/
def decodeCharset (ctx : Context) : Decoder Charset := do
  Decoder.sp
  let charset ← Decoder.charset ctx
  Decoder.sp
  return charset

theorem decodeCharset_recognizes (ctx : Context) : Decoder.Recognizes (decodeCharset ctx)
    (fun w charset => ∃ v, Charset.Spelled ctx v charset ∧ w = Octet.sp :: (v ++ [Octet.sp]))
    Anything := by
  have hspace : ∀ charset : Charset, Decoder.Recognizes (do Decoder.sp; return charset)
      (fun w charset' => ∃ v, (v = [] ∧ charset' = charset) ∧ w = Octet.sp :: v) Anything :=
    fun charset => Decoder.Recognizes.spaced fun _ => .pure charset
  refine ((Decoder.charset_recognizes ctx).bind hspace ?_).spaced.congr fun w charset => ?_
  · rintro charset _ _ s ⟨v, -, rfl⟩ -
    exact (keyEnds_sp _).stops rfl rfl rfl rfl
  · constructor
    · rintro ⟨_, ⟨v, _, _, hv, ⟨_, ⟨rfl, rfl⟩, rfl⟩, rfl⟩, rfl⟩
      exact ⟨v, hv, rfl⟩
    · rintro ⟨v, hv, rfl⟩
      exact ⟨_, ⟨v, charset, _, hv, ⟨[], ⟨rfl, rfl⟩, rfl⟩, rfl⟩, rfl⟩

/-- A character set that is named is that of all strings behind it. -/
theorem decodeCriteria_of_charset {d : Cursor} (hc : c.Steady)
    (h : Decoder.keyword c = (.ok "CHARSET", d)) :
    decodeCriteria ctx c = (do
      let charset ← decodeCharset ctx
      return (some charset, ← decodeKeys { ctx with charset })) d := by
  obtain ⟨b, u, s, -, -, hrest, hb⟩ := rest_of_keyword hc h rfl
  rw [decodeCriteria, Decoder.bind_of_ok (Decoder.peek_of_rest hc hrest), if_pos hb,
    Decoder.bind_of_ok h, if_pos rfl]
  simp only [decodeCharset, decodeKeys, bind_assoc, pure_bind]

variable {criteria : Option Charset × SearchKey}

theorem decodeCriteria_sound (hc : c.Steady) (hrun : decodeCriteria ctx c = (.ok criteria, e)) :
    ∃ w t, Criteria ctx w criteria ∧ Trailing ctx.leniency t e.rest ∧ c.Reaches (w ++ t) e := by
  by_cases h : ∃ d, Decoder.keyword c = (.ok "CHARSET", d)
  · obtain ⟨d, h⟩ := h
    obtain ⟨b, u, s, hword, hcd, -⟩ := rest_of_keyword hc h rfl
    have hd := hcd.steady hc
    rw [decodeCriteria_of_charset hc h] at hrun
    obtain ⟨charset, d', hcharset, hrun⟩ := Decoder.exists_of_bind hrun
    obtain ⟨_, ⟨v, hv, rfl⟩, hdd'⟩ := (decodeCharset_recognizes ctx d).sound hd hcharset
    obtain ⟨key, hkeys, rfl⟩ := Decoder.exists_of_map hrun
    obtain ⟨w, t, hw, ht, hde⟩ := decodeKeys_sound (hdd'.steady hd) hkeys
    refine ⟨_, t, .inCharset hword hv hw, ht, ?_⟩
    simpa using (hcd.trans hdd').trans hde
  · rw [decodeCriteria_of_ne hc (not_exists.1 h)] at hrun
    obtain ⟨key, hkeys, rfl⟩ := Decoder.exists_of_map hrun
    obtain ⟨w, t, hw, ht, hce⟩ := decodeKeys_sound hc hkeys
    exact ⟨w, t, .keys hw, ht, hce⟩

theorem decodeCriteria_complete {w t s : List UInt8} (hc : c.Listens) (hw : Criteria ctx w criteria)
    (ht : Trailing ctx.leniency t s) (hs : LineEnds s) (hrest : c.rest = w ++ (t ++ s)) :
    ∃ e, decodeCriteria ctx c = (.ok criteria, e) ∧ c.Reaches (w ++ t) e := by
  cases hw with
  | keys hkeys =>
    obtain ⟨e, hrun, hce⟩ := decodeKeys_complete hc hkeys ht hs hrest
    obtain ⟨first, d, hfirst, -⟩ := Decoder.exists_of_bind hrun
    refine ⟨e, ?_, hce⟩
    rw [decodeCriteria_of_ne hc.steady (keyword_ne_of_decode hc.steady hfirst),
      Decoder.bind_of_ok hrun]
    rfl
  | @inCharset u v w charset key hword hcharset hkeys =>
    have hspelling : u ≠ [] ∧ u.all Octet.isKeywordChar = true ∧
        Octet.toText (u.map Octet.upper) = "CHARSET" :=
      Decoder.spelling_of_keyword (by decide) (beq_iff_eq.1 hword)
    obtain ⟨hne, hall, htext⟩ := hspelling
    have hrest₁ : c.rest = u ++ (Octet.sp :: (v ++ [Octet.sp]) ++ (w ++ (t ++ s))) := by
      rw [hrest]
      simp
    obtain ⟨d, hkeyword, hcd, hd⟩ := (Decoder.keyword_recognizes c).complete hc
      ⟨hne, hall, htext.symm⟩ ((keyEnds_sp _).stops rfl rfl rfl rfl) hrest₁
    have hrest₂ := hcd.rest_eq_of hrest₁
    obtain ⟨d', hrun, hdd', hd'⟩ := (decodeCharset_recognizes ctx d).complete hd
      ⟨v, hcharset, rfl⟩ trivial hrest₂
    obtain ⟨e, hrun', hde⟩ := decodeKeys_complete hd' hkeys ht hs (hdd'.rest_eq_of hrest₂)
    refine ⟨e, ?_, ?_⟩
    · rw [decodeCriteria_of_charset hc.steady hkeyword, Decoder.bind_of_ok hrun,
        Decoder.bind_of_ok hrun']
      rfl
    · simpa using (hcd.trans hdd').trans hde

end Keys

/-! ### The grammar is decoded exactly -/

/-- A source that shows nothing shows no key. -/
theorem steady_of_decode {level : Nat} {c e : Cursor} {key : SearchKey}
    (h : decode ctx level c = (.ok key, e)) : c.Steady := by
  rw [decode] at h
  cases hlevels : maxLevel + 1 - level with
  | zero => simp [hlevels, decodeWithin, Decoder.reject, Decoder.fail] at h
  | succ levels =>
    rw [hlevels, decodeWithin] at h
    exact (Decoder.exists_of_look h).1

theorem steady_of_decodeCriteria {c e : Cursor} {criteria : Option Charset × SearchKey}
    (h : decodeCriteria ctx c = (.ok criteria, e)) : c.Steady := by
  rw [decodeCriteria] at h
  exact (Decoder.exists_of_look h).1

/-- A key that is decoded at some level is the one that the consumed octets derive there, and
whatever octets derive a key at a level are decoded as that key where it ends behind them.  So it is
with all keys of a command, where their line ends; a space in front of the line break is consumed
with them where that is accepted. -/
theorem grammar_exact (ctx : Context) :
    (∀ level c key e, decode ctx level c = (.ok key, e) →
      ∃ w, Derives ctx level w key ∧ c.Reaches w e) ∧
    (∀ level w key s (c : Cursor), Derives ctx level w key → KeyEnds s → c.Listens →
      c.rest = w ++ s → ∃ e, decode ctx level c = (.ok key, e) ∧ c.Reaches w e) ∧
    (∀ c criteria e, decodeCriteria ctx c = (.ok criteria, e) →
      ∃ w t, Criteria ctx w criteria ∧ Trailing ctx.leniency t e.rest ∧ c.Reaches (w ++ t) e) ∧
    (∀ w criteria t s (c : Cursor), Criteria ctx w criteria → Trailing ctx.leniency t s →
      LineEnds s → c.Listens → c.rest = w ++ (t ++ s) →
      ∃ e, decodeCriteria ctx c = (.ok criteria, e) ∧ c.Reaches (w ++ t) e) := by
  refine ⟨?_, ?_, ?_, ?_⟩
  · intro level c key e hrun
    exact (decode_recognizes ctx level c).sound (steady_of_decode hrun) hrun
  · intro level w key s c hw hs hc hrest
    obtain ⟨e, hrun, hreaches, -⟩ := (decode_recognizes ctx level c).complete hc hw hs hrest
    exact ⟨e, hrun, hreaches⟩
  · intro c criteria e hrun
    exact decodeCriteria_sound (steady_of_decodeCriteria hrun) hrun
  · intro w criteria t s c hw ht hs hc hrest
    exact decodeCriteria_complete hc hw ht hs hrest

/-- A key in mixed letter case, alone and as all keys of a command that names a character set and
has a space in front of its line break. -/
theorem grammar_exact_not_seen :
    (∃ w e, Derives {} 1 w (.not .seen) ∧
      (Cursor.ofOctets (Octet.ofText "Not SEEN)")).Reaches w e) ∧
    (∃ e, decode {} 1 (Cursor.ofOctets (Octet.ofText "Not SEEN)")) = (.ok (.not .seen), e) ∧
      e.rest = [Octet.rparen]) ∧
    ∃ e, decodeCriteria {} (Cursor.ofOctets (Octet.ofText "charset utf-8 Not SEEN \r\n")) =
      (.ok (some .utf8, .not .seen), e) ∧ e.rest = [Octet.cr, Octet.lf] ∧
      ∃ w t, Criteria {} w (some .utf8, .not .seen) ∧ Trailing {} t e.rest ∧
        (Cursor.ofOctets (Octet.ofText "charset utf-8 Not SEEN \r\n")).Reaches (w ++ t) e := by
  have hkey (ctx : Context) :
      Derives ctx 1 (Octet.ofText "Not" ++ Octet.sp :: (Octet.ofText "SEEN" ++ [])) (.not .seen) :=
    .not (by decide) (by decide) (.leaf (by decide) (by decide) .seen)
  have hcriteria : Criteria {} (Octet.ofText "charset" ++ Octet.sp :: (Octet.ofText "utf-8" ++
      Octet.sp :: (Octet.ofText "Not SEEN" ++ []))) (some .utf8, .not .seen) :=
    .inCharset (by decide) ⟨_, .word (by decide) (by decide), by decide⟩
      ⟨⟨⟨_, _⟩, []⟩, List.forall_mem_singleton.2 (hkey _), Or.inl rfl, rfl⟩
  refine ⟨?_, ?_, ?_⟩
  · obtain ⟨w, h⟩ := (grammar_exact {}).1 1 (Cursor.ofOctets (Octet.ofText "Not SEEN)")) _ _ rfl
    exact ⟨w, _, h⟩
  · obtain ⟨e, hrun, hreaches⟩ := (grammar_exact {}).2.1 1 _ _ [Octet.rparen]
      (Cursor.ofOctets (Octet.ofText "Not SEEN)")) (hkey {}) (keyEnds_rparen [])
      (Cursor.listens_ofOctets _) rfl
    exact ⟨e, hrun, hreaches.rest_eq_of rfl⟩
  · obtain ⟨e, hrun, hreaches⟩ := (grammar_exact {}).2.2.2 _ _ [Octet.sp] [Octet.cr, Octet.lf]
      (Cursor.ofOctets (Octet.ofText "charset utf-8 Not SEEN \r\n")) hcriteria
      (Or.inr ⟨rfl, rfl, Octet.cr, rfl, rfl⟩) (by simp [LineEnds, Octet.isLineBreak])
      (Cursor.listens_ofOctets _) rfl
    exact ⟨e, hrun, hreaches.rest_eq_of rfl, (grammar_exact {}).2.2.1 _ _ _ hrun⟩

end SearchKey

end ImapRequest

import ImapRequest.Proofs.Grammar.Values
import ImapRequest.Proofs.WellFormed
import Mathlib.Data.List.Sort

/-!
# The grammar of flags

```
flag = "\" atom / atom
flag-list = "(" [flag *(SP flag)] ")"
store-att-flags = ["+" / "-"] "FLAGS" [".SILENT"] SP (flag-list / flag *(SP flag))
```

A flag is read from a text, whose first character is looked at and whose rest is checked as a whole,
and from the octets of a request, which are taken for as long as they may belong to an atom.  Both
read the words of one grammar, in which system flags have no letter case of their own.

Lists in parentheses go on with a space or close; lists without parentheses go on with a space or
end.  Either way the flags are those between the spaces, and what was read before is dropped.

* `Decoder.Consumes` : a word is read from any cursor, and nothing else of it is changed;
* `Flag.Spelled`, `Flag.ofText_eq_ok_iff` : the grammar of a flag, and the texts of it;
* `Flag.FirstOccurrences` : each element once, in the order of first occurrence;
* `Flag.decodeList_sound`, `Flag.decodeBare_sound` : lists are read as nothing else;
* `StoreRequest.flags_agree` : the readings of flags and of what a STORE command asks for.
-/

namespace ImapRequest

namespace Decoder

variable {α β : Type}

/-! ### Words that are read on any steady source -/

/-- The octets `w` are read as `a` where octets like `F` stand behind them, and the cursor is only
moved behind them. -/
def Consumes (x : Decoder α) (w : List UInt8) (F : List UInt8 → Prop) (a : α) : Prop :=
  ∀ ⦃c : Cursor⦄ ⦃s : List UInt8⦄, c.Steady → F s → c.rest = w ++ s →
    x c = (.ok a, c.advance w.length)

namespace Consumes

variable {x : Decoder α} {f : α → Decoder β} {v w : List UInt8} {F G : List UInt8 → Prop}
  {a : α} {b : β}

theorem imp (h : x.Consumes w F a) (hFG : ∀ s, G s → F s) : x.Consumes w G a :=
  fun _ s hc hs hrest => h hc (hFG s hs) hrest

/-- One after the other.  What comes behind the first word has to end it. -/
theorem bind (hx : x.Consumes v F a) (hf : (f a).Consumes w G b) (hend : ∀ s, G s → F (w ++ s)) :
    (x >>= f).Consumes (v ++ w) G b := by
  intro c s hc hs hrest
  rw [List.append_assoc] at hrest
  have hrest' : (c.advance v.length).rest = w ++ s := Cursor.rest_advance_append hrest
  rw [bind_of_ok (hx hc (hend s hs) hrest), hf (hc.advance _) hs hrest', Cursor.advance_advance,
    List.length_append]

theorem map (g : α → β) (hx : x.Consumes w F a) :
    (do return g (← x) : Decoder β).Consumes w F (g a) := by
  intro c s hc hs hrest
  rw [bind_of_ok (hx hc hs hrest)]
  rfl

/-- A decoder that looks at the next octet first. -/
theorem look {g : UInt8 → Decoder α} {b : UInt8} (h : (g b).Consumes (b :: w) F a) :
    (peek >>= g).Consumes (b :: w) F a := by
  intro c s hc hs hrest
  rw [bind_of_ok (peek_of_rest hc hrest)]
  exact h hc hs hrest

theorem expect (b : UInt8) : (expect b).Consumes [b] Anything () :=
  fun _ _ hc _ hrest => expect_of_rest hc hrest

theorem sp : sp.Consumes [Octet.sp] Anything () := fun _ _ hc _ hrest => sp_of_rest hc hrest

theorem consume (b : UInt8) : consume.Consumes [b] Anything b :=
  fun _ _ hc _ hrest => consume_of_rest hc hrest

section Lists

variable {more : Decoder Bool} {T : List UInt8 → List UInt8 → Prop} {t : List UInt8}

/-- By induction on the elements, each of which is announced by the space in front of it. -/
theorem many (hmore : Separates more T) (hforward : Forward x) (hsp : ∀ s, F (Octet.sp :: s))
    (hend : ∀ s, G s → T t s ∧ F (t ++ s)) {parts : List (Part α)}
    (hstart : ∀ p ∈ parts, ∃ b ∈ p.octets.head?, Octet.isLineBreak b = false)
    (hparts : ∀ p ∈ parts, x.Consumes p.octets F p.value) :
    (many more x).Consumes (Part.spaced parts ++ t) G (parts.map Part.value) := by
  induction parts with
  | nil =>
    intro c s hc hs hrest
    rw [many_apply hmore.advances hmore.forward hforward hc,
      bind_of_ok (hmore.false_of_rest hc (hend s hs).1 hrest)]
    rfl
  | cons p parts ih =>
    obtain ⟨hstart, hstarts⟩ := List.forall_mem_cons.1 hstart
    obtain ⟨hp, hparts⟩ := List.forall_mem_cons.1 hparts
    have hend' : ∀ s, G s → F (Part.spaced parts ++ t ++ s) := fun s hs => by
      rw [List.append_assoc]
      exact Part.spaced_ends hsp parts (hend s hs).2
    have hfurther : (do
        let a ← x
        let as ← Decoder.many more x
        return a :: as : Decoder (List α)).Consumes (p.octets ++ (Part.spaced parts ++ t)) G
          (p.value :: parts.map Part.value) :=
      hp.bind ((ih hstarts hparts).map (p.value :: ·)) hend'
    rw [Part.spaced_cons, List.cons_append, List.append_assoc]
    intro c s hc hs hrest
    have hrest' := Cursor.rest_advance_one hrest
    rw [List.cons_append, List.append_assoc] at hrest
    rw [many_of_sp hmore hforward hc hstart hrest, hfurther (hc.advance 1) hs hrest',
      Cursor.advance_advance, List.length_cons, Nat.add_comm]
    rfl

theorem oneOrMore (hmore : Separates more T) (hforward : Forward x) (hsp : ∀ s, F (Octet.sp :: s))
    (hend : ∀ s, G s → T t s ∧ F (t ++ s)) {parts : OneOrMore (Part α)}
    (hstart : ∀ p ∈ parts.toList, ∃ b ∈ p.octets.head?, Octet.isLineBreak b = false)
    (hparts : ∀ p ∈ parts.toList, x.Consumes p.octets F p.value) :
    (oneOrMore more x).Consumes (Part.joined parts ++ t) G
      ⟨parts.head.value, parts.tail.map Part.value⟩ := by
  obtain ⟨hp, hparts⟩ := List.forall_mem_cons.1 hparts
  have htail := many hmore hforward hsp hend (List.forall_mem_cons.1 hstart).2 hparts
  rw [Part.joined, List.append_assoc]
  refine hp.bind (htail.map (OneOrMore.mk parts.head.value)) fun s hs => ?_
  rw [List.append_assoc]
  exact Part.spaced_ends hsp _ (hend s hs).2

end Lists

end Consumes

end Decoder

/-! ### Atoms in texts -/

theorem Atom.ofText_eq_ok_iff {text : String} {a : Atom} :
    ofText text = .ok a ↔ Spelled (Octet.ofText text) a := by
  have hcheck : ofText text = .ok a ↔ check (Octet.ofText text) = .ok () ∧ a = ⟨text⟩ := by
    rw [ofText, bind_eq_ok_iff]
    constructor
    · rintro ⟨_, hcheck, h⟩
      exact ⟨hcheck, (Except.ok.inj h).symm⟩
    · rintro ⟨hcheck, rfl⟩
      exact ⟨(), hcheck, rfl⟩
  rw [hcheck, check, Word.check_eq_ok, Spelled, and_assoc]
  refine and_congr_right fun _ => and_congr_right fun hall => ?_
  rw [ofOctets, Octet.toText_ofText_of_all Octet.isAtomChar_lt hall]

theorem Atom.WellFormed.spelled {a : Atom} (h : a.WellFormed) : Spelled (Octet.ofText a.text) a :=
  ofText_eq_ok_iff.1 (by
    have hcheck : check (Octet.ofText a.text) = .ok () :=
      Word.check_eq_ok.2 ⟨h.1, List.all_eq_true.2 h.2⟩
    rw [ofText, hcheck]
    rfl)

theorem Atom.Spelled.exists_cons {w : List UInt8} {a : Atom} (h : Spelled w a) :
    ∃ b v, w = b :: v ∧ Octet.isAtomChar b = true := by
  obtain ⟨hne, hall, -⟩ := h
  obtain ⟨b, v, rfl⟩ := List.exists_cons_of_ne_nil hne
  exact ⟨b, v, rfl, List.all_eq_true.1 hall b (List.mem_cons_self ..)⟩

theorem Atom.Spelled.wellFormed {w : List UInt8} {a : Atom} (h : Spelled w a) : a.WellFormed := by
  obtain ⟨hne, hall, rfl⟩ := h
  exact Octet.isWord_toText Octet.isAtomChar_lt hne (List.all_eq_true.1 hall)

theorem Atom.Spelled.consumes {w : List UInt8} {a : Atom} (h : Spelled w a) :
    decode.Consumes w (Stops Octet.isAtomChar) a := by
  obtain ⟨hne, hall, rfl⟩ := h
  have hrun : (Decoder.takeWhile1 Octet.isAtomChar "atom").Consumes w (Stops Octet.isAtomChar) w :=
    fun _ _ hc hs hrest => Decoder.takeWhile1_of_rest hc hrest hne (List.all_eq_true.1 hall) hs
  exact hrun.map Atom.ofOctets

namespace Flag

/-! ### One flag -/

/-- A flag as it is written: an atom, or one behind a backslash. -/
inductive Spelled : List UInt8 → Flag → Prop
  | backslashed {w : List UInt8} {name : Atom} (h : Atom.Spelled w name) :
    Spelled (Octet.backslash :: w) (ofBackslashed name)
  | keyword {w : List UInt8} {name : Atom} (h : Atom.Spelled w name) : Spelled w (keyword name)

/-- The octets that flags start with.  They neither open nor close a list, and end no line. -/
def isStart (b : UInt8) : Bool := b == Octet.backslash || Octet.isAtomChar b

theorem isStart_spec : ∀ b, isStart b = true →
    b ≠ Octet.lparen ∧ b ≠ Octet.rparen ∧ Octet.isLineBreak b = false :=
  Octet.forall_octet (by decide +kernel)

theorem backslash_ne {b : UInt8} (h : Octet.isAtomChar b = true) : b ≠ Octet.backslash := by
  rintro rfl
  exact absurd h (by decide)

variable {w : List UInt8} {f : Flag} {c e : Cursor}

theorem Spelled.exists_cons (h : Spelled w f) : ∃ b v, w = b :: v ∧ isStart b = true := by
  cases h with
  | backslashed _ => exact ⟨_, _, rfl, rfl⟩
  | keyword h =>
    obtain ⟨b, v, rfl, hb⟩ := h.exists_cons
    exact ⟨b, v, rfl, by simp [isStart, hb]⟩

theorem Spelled.not_isLineBreak (h : Spelled w f) : ∃ b ∈ w.head?, Octet.isLineBreak b = false := by
  obtain ⟨b, v, rfl, hb⟩ := h.exists_cons
  exact ⟨b, rfl, (isStart_spec b hb).2.2⟩

/-- Behind a backslash there is an atom. -/
theorem spelled_backslash : Spelled (Octet.backslash :: w) f ↔
    ∃ name, Atom.Spelled w name ∧ f = ofBackslashed name := by
  constructor
  · intro h
    cases h with
    | backslashed h => exact ⟨_, h, rfl⟩
    | keyword h =>
      obtain ⟨b, v, heq, hb⟩ := h.exists_cons
      exact absurd (List.cons.inj heq).1.symm (backslash_ne hb)
  · rintro ⟨name, h, rfl⟩
    exact .backslashed h

/-- Without a backslash there is nothing but an atom. -/
theorem spelled_of_head (hw : w.head? ≠ some Octet.backslash) : Spelled w f ↔
    ∃ name, Atom.Spelled w name ∧ f = Flag.keyword name := by
  constructor
  · intro h
    cases h with
    | backslashed h => exact absurd rfl hw
    | keyword h => exact ⟨_, h, rfl⟩
  · rintro ⟨name, h, rfl⟩
    exact .keyword h

theorem Spelled.consumes (h : Spelled w f) : decode.Consumes w (Stops Octet.isAtomChar) f := by
  cases h with
  | backslashed h =>
    refine Decoder.Consumes.look ?_
    rw [if_pos (beq_self_eq_true _)]
    exact (Decoder.Consumes.consume _).bind (h.consumes.map ofBackslashed) fun _ _ => trivial
  | keyword h =>
    obtain ⟨b, v, rfl, hb⟩ := h.exists_cons
    refine Decoder.Consumes.look ?_
    rw [if_neg (by simpa using backslash_ne hb)]
    exact h.consumes.map Flag.keyword

theorem spelled_of_decode (h : decode c = (.ok f, e)) :
    ∃ w s, Spelled w f ∧ c.rest = w ++ s ∧ e = c.advance w.length := by
  have hatom : ∀ {d : Cursor} {name : Atom}, d.Steady → Atom.decode d = (.ok name, e) →
      ∃ w s, Atom.Spelled w name ∧ d.rest = w ++ s ∧ e = d.advance w.length := by
    intro d name hd h
    obtain ⟨bs, hrun, rfl⟩ := Decoder.exists_of_map h
    obtain ⟨s, hrest, hne, hall, -, rfl⟩ := Decoder.rest_of_takeWhile1 hd hrun
    exact ⟨bs, s, ⟨hne, List.all_eq_true.2 hall, rfl⟩, hrest, rfl⟩
  obtain ⟨hc, b, s, hrest, h⟩ := Decoder.exists_of_look h
  split at h
  · rename_i hb
    obtain rfl : b = Octet.backslash := by simpa using hb
    rw [Decoder.bind_of_ok (Decoder.consume_of_rest hc hrest)] at h
    obtain ⟨name, hname, rfl⟩ := Decoder.exists_of_map h
    obtain ⟨w, t, hw, hrest', rfl⟩ := hatom (hc.advance 1) hname
    rw [Cursor.rest_advance_one hrest] at hrest'
    refine ⟨_, t, .backslashed hw, by rw [hrest, hrest']; rfl, ?_⟩
    rw [Cursor.advance_advance, List.length_cons, Nat.add_comm]
  · obtain ⟨name, hname, rfl⟩ := Decoder.exists_of_map h
    obtain ⟨w, t, hw, hrest', rfl⟩ := hatom hc hname
    exact ⟨w, t, .keyword hw, hrest', rfl⟩

theorem decode_recognizes : Decoder.Recognizes decode Spelled (Stops Octet.isAtomChar) := fun _ =>
  .of_advance (fun _ _ _ hrun => spelled_of_decode hrun) fun _ _ _ hc hw hs hrest =>
    hw.consumes hc hs hrest

/-- Nothing is left exactly where all octets together are a rendering. -/
theorem decode_all_iff (hc : c.Steady) :
    decode c = (.ok f, c.advance c.rest.length) ↔ Spelled c.rest f := by
  constructor
  · intro h
    obtain ⟨w, s, hw, hrest, hend⟩ := spelled_of_decode h
    have hnil : [] = s := by simpa [hrest] using congrArg Cursor.rest hend
    rwa [hrest, ← hnil, List.append_nil]
  · intro h
    exact h.consumes hc (s := []) (fun b hb => by simp at hb) (List.append_nil _).symm

/-! ### Flags in texts -/

/-- A flag has the same texts as renderings. -/
theorem ofText_eq_ok_iff {text : String} : ofText text = .ok f ↔ Spelled (Octet.ofText text) f := by
  have hbind : ∀ {x : Except WordError Atom} {make : Atom → Flag},
      (do return make (← x) : Except WordError Flag) = .ok f ↔ ∃ name, x = .ok name ∧
        f = make name := by
    intro x make
    rw [bind_eq_ok_iff]
    simp [pure, Except.pure, eq_comm]
  rw [ofText]
  split
  · rename_i name htext
    have hoctets : Octet.ofText text = Octet.backslash :: Octet.ofText (String.ofList name) := by
      rw [Octet.ofText, htext, Octet.ofText, String.toList_ofList]
      rfl
    rw [hoctets, spelled_backslash, hbind]
    simp only [Atom.ofText_eq_ok_iff]
  · rename_i hplain
    rw [hbind]
    simp only [Atom.ofText_eq_ok_iff]
    constructor
    · rintro ⟨name, hname, rfl⟩
      exact .keyword hname
    · intro h
      refine (spelled_of_head fun hhead => ?_).1 h
      -- All octets are ASCII, so the text would start with a backslash as well.
      obtain ⟨v, hv⟩ := List.head?_eq_some_iff.1 hhead
      rw [hv, spelled_backslash] at h
      obtain ⟨name, ⟨-, hall, -⟩, -⟩ := h
      have hlt : ∀ b ∈ Octet.ofText text, b < 0x80 := by
        rw [hv]
        exact List.forall_mem_cons.2 ⟨by decide, fun b hb =>
          Octet.isAtomChar_lt b (List.all_eq_true.1 hall b hb)⟩
      have htext : text.toList = '\\' :: v.map Octet.toChar := by
        rw [← Octet.toText_ofText hlt, hv, Octet.toText, String.toList_ofList]
        rfl
      exact hplain _ htext

/-- What is read is well-formed, so its text is read as the same flag: that of a system flag in the
letter case of its name, any other text as it was. -/
theorem Spelled.toText (h : Spelled w f) : Spelled (Octet.ofText f.toText) f := by
  have hf : f.WellFormed := by
    cases h with
    | backslashed h => exact wellFormed_ofBackslashed h.wellFormed
    | keyword h => exact h.wellFormed
  cases f with
  | answered => exact ofText_eq_ok_iff.1 rfl
  | deleted => exact ofText_eq_ok_iff.1 rfl
  | draft => exact ofText_eq_ok_iff.1 rfl
  | flagged => exact ofText_eq_ok_iff.1 rfl
  | seen => exact ofText_eq_ok_iff.1 rfl
  | extension name =>
    have hoctets :
        Octet.ofText (extension name).toText = Octet.backslash :: Octet.ofText name.text := by
      rw [Flag.toText, Octet.ofText, String.toList_append, List.flatMap_append]
      rfl
    have hnone : systemNames.find? (fun entry => sameLetters entry.1 name.text) = none := by
      simpa using hf.2
    have hvalue : ofBackslashed name = extension name := by rw [ofBackslashed, hnone]
    rw [hoctets, spelled_backslash]
    exact ⟨name, hf.1.spelled, hvalue.symm⟩
  | keyword name => exact .keyword (Atom.WellFormed.spelled hf)

/-! ### First occurrences -/

/-- Each element once, in the order of first occurrence. -/
structure FirstOccurrences (fs gs : List Flag) : Prop where
  nodup : gs.Nodup
  mem_iff : ∀ f, f ∈ gs ↔ f ∈ fs
  ordered : gs.Pairwise fun f g => fs.idxOf f < fs.idxOf g

/-- What comes after `before` occurs in the order of what is left.  By induction on it: dropping the
first one shifts where all others occur. -/
theorem pairwise_distinctAfter (before fs : List Flag) :
    (distinctAfter before fs).Pairwise fun f g => fs.idxOf f < fs.idxOf g := by
  induction fs generalizing before with
  | nil => exact List.Pairwise.nil
  | cons h fs ih =>
    have hshift : ∀ {before : List Flag}, h ∈ before → (distinctAfter before fs).Pairwise
        fun f g => (h :: fs).idxOf f < (h :: fs).idxOf g := by
      intro before hbefore
      have hne : ∀ f ∈ distinctAfter before fs, h ≠ f := by
        rintro f hf rfl
        exact (mem_distinctAfter.1 hf).2 hbefore
      refine (ih before).imp_of_mem fun {f g} hf hg hlt => ?_
      rw [List.idxOf_cons_ne _ (hne f hf), List.idxOf_cons_ne _ (hne g hg)]
      exact Nat.succ_lt_succ hlt
    rw [distinctAfter]
    split
    · rename_i hmem
      exact hshift hmem
    · refine List.pairwise_cons.2 ⟨fun g hg => ?_, hshift (List.mem_cons_self ..)⟩
      have hne : h ≠ g := by
        rintro rfl
        exact (mem_distinctAfter.1 hg).2 (List.mem_cons_self ..)
      rw [List.idxOf_cons_self, List.idxOf_cons_ne _ hne]
      exact Nat.succ_pos _

theorem firstOccurrences_distinct (fs : List Flag) : FirstOccurrences fs (distinct fs) where
  nodup := nodup_distinct fs
  mem_iff _ := mem_distinct
  ordered := pairwise_distinctAfter [] fs

/-- There is only one such list. -/
theorem FirstOccurrences.unique {fs gs hs : List Flag} (hgs : FirstOccurrences fs gs)
    (hhs : FirstOccurrences fs hs) : gs = hs := by
  have hirrefl : Std.Irrefl fun f g : Flag => fs.idxOf f < fs.idxOf g := ⟨fun _ => Nat.lt_irrefl _⟩
  have hantisymm : Std.Antisymm fun f g : Flag => fs.idxOf f < fs.idxOf g :=
    ⟨fun _ _ h h' => absurd h (Nat.lt_asymm h')⟩
  exact hgs.ordered.eq_of_mem_iff hhs.ordered fun f => (hgs.mem_iff f).trans (hhs.mem_iff f).symm

/-! ### Lists of flags -/

/-- Every part is a rendering of its flag. -/
def AllSpelled (parts : OneOrMore (Part Flag)) : Prop :=
  ∀ p ∈ parts.toList, Spelled p.octets p.value

/-- Flags in parentheses, with single spaces between them. -/
def enclosed (parts : OneOrMore (Part Flag)) : List UInt8 :=
  Octet.lparen :: (Part.joined parts ++ [Octet.rparen])

/-- Where no space follows, flags without parentheses end. -/
def BareEnd (t s : List UInt8) : Prop := t = [] ∧ s.head? ≠ some Octet.sp

theorem bareContinues_apply (hc : c.Steady) : bareContinues c =
    if c.rest.head? = some Octet.sp then (.ok true, c.advance 1) else (.ok false, c) := by
  rw [bareContinues, Decoder.bind_of_ok (Decoder.nextIs_apply hc _)]
  split
  · rename_i h
    obtain ⟨s, hrest⟩ := List.head?_eq_some_iff.1 (beq_iff_eq.1 h)
    rw [if_pos (beq_iff_eq.1 h), Decoder.bind_of_ok (Decoder.consume_of_rest hc hrest)]
    rfl
  · rename_i h
    rw [if_neg (by simpa using h)]
    rfl

theorem bareContinues_separates : Decoder.Separates bareContinues BareEnd where
  advances := bareContinues_advances
  forward := (show Decoder.Inline 0 {} bareContinues from bareContinues_inline).forward
  rest_of_true {c d} hc hrun := by
    rw [bareContinues_apply hc] at hrun
    split at hrun
    · rename_i hsp
      obtain ⟨s, hrest⟩ := List.head?_eq_some_iff.1 hsp
      obtain rfl : c.advance 1 = d := congrArg Prod.snd hrun
      exact .front (w := [Octet.sp]) hrest
    · simp at hrun
  rest_of_false {c d} hc hrun := by
    rw [bareContinues_apply hc] at hrun
    split at hrun
    · simp at hrun
    · rename_i hsp
      obtain rfl : c = d := congrArg Prod.snd hrun
      exact ⟨[], ⟨rfl, hsp⟩, .refl c⟩
  true_of_rest hc hrest _ := by
    rw [bareContinues_apply hc, if_pos (by rw [hrest]; rfl)]
  false_of_rest {c t s} hc ht hrest := by
    obtain ⟨rfl, hsp⟩ := ht
    rw [bareContinues_apply hc, if_neg (by rw [hrest]; exact hsp)]
    rfl

variable {parts : OneOrMore (Part Flag)} {flags : List Flag}

theorem AllSpelled.exists_cons (h : AllSpelled parts) :
    ∃ b v, Part.joined parts = b :: v ∧ isStart b = true := by
  obtain ⟨b, v, hw, hb⟩ := (h parts.head (List.mem_cons_self ..)).exists_cons
  exact ⟨b, v ++ Part.spaced parts.tail, by rw [Part.joined, hw]; rfl, hb⟩

theorem AllSpelled.decodeList_consumes (h : AllSpelled parts) :
    decodeList.Consumes (enclosed parts) Anything (distinct (Part.values parts)) := by
  obtain ⟨b, v, hjoined, hb⟩ := h.exists_cons
  have hlist : (Decoder.oneOrMore Decoder.listContinues decode).Consumes
      (Part.joined parts ++ [Octet.rparen]) Anything
        ⟨parts.head.value, parts.tail.map Part.value⟩ :=
    .oneOrMore Decoder.listContinues_separates decode_forward (Stops.cons rfl)
      (fun s _ => ⟨rfl, Stops.cons rfl s⟩) (fun p hp => (h p hp).not_isLineBreak)
      fun p hp => (h p hp).consumes
  refine (Decoder.Consumes.expect _).bind ?_ fun _ _ => trivial
  rw [hjoined] at hlist ⊢
  refine Decoder.Consumes.look ?_
  rw [if_neg (by simpa using (isStart_spec b hb).2.1)]
  exact hlist.map fun flags => distinct flags.toList

theorem decodeList_consumes_nil : decodeList.Consumes [Octet.lparen, Octet.rparen] Anything [] := by
  refine (Decoder.Consumes.expect _).bind (Decoder.Consumes.look ?_) fun _ _ => trivial
  rw [if_pos (beq_self_eq_true _)]
  exact (Decoder.Consumes.consume _).map fun _ => []

theorem AllSpelled.decodeBare_consumes (h : AllSpelled parts) :
    decodeBare.Consumes (Part.joined parts) LineEnds (distinct (Part.values parts)) := by
  have hend : ∀ s, LineEnds s → BareEnd [] s ∧ Stops Octet.isAtomChar ([] ++ s) := by
    intro s hs
    have hatom : ∀ b, Octet.isLineBreak b = true → Octet.isAtomChar b = false :=
      Octet.forall_octet (by decide +kernel)
    exact ⟨⟨rfl, fun hsp => absurd (hs _ hsp) (by decide)⟩, fun b hb => hatom b (hs b hb)⟩
  have hlist := Decoder.Consumes.oneOrMore bareContinues_separates decode_forward
    (fun s => Stops.cons rfl s) hend (fun p hp => (h p hp).not_isLineBreak)
      fun p hp => (h p hp).consumes
  rw [List.append_nil] at hlist
  exact hlist.map fun flags => distinct flags.toList

/-- Flags in parentheses that were read: none, or some with single spaces between them. -/
theorem decodeList_sound (hc : c.Steady) (h : decodeList c = (.ok flags, e)) :
    flags = [] ∧ c.Reaches [Octet.lparen, Octet.rparen] e ∨
    ∃ parts, AllSpelled parts ∧ flags = distinct (Part.values parts) ∧
      c.Reaches (enclosed parts) e := by
  obtain ⟨_, d, hopen, h⟩ := Decoder.exists_of_bind h
  obtain ⟨s, hrest, rfl⟩ := Decoder.rest_of_expect hc hopen
  have hcd : c.Reaches [Octet.lparen] (c.advance 1) := .front (w := [Octet.lparen]) hrest
  obtain ⟨hc', b, t, hrest', h⟩ := Decoder.exists_of_look h
  split at h
  · rename_i hb
    obtain rfl : b = Octet.rparen := by simpa using hb
    rw [Decoder.bind_of_ok (Decoder.consume_of_rest hc' hrest')] at h
    obtain ⟨rfl, rfl⟩ : [] = flags ∧ (c.advance 1).advance 1 = e := by
      simpa [Decoder.pure_apply] using h
    exact Or.inl ⟨rfl, hcd.trans (.front (w := [Octet.rparen]) hrest')⟩
  · obtain ⟨as, hlist, rfl⟩ := Decoder.exists_of_map h
    obtain ⟨parts, _, hparts, hvalues, rfl, hreaches⟩ := Decoder.oneOrMore_sound
      Decoder.listContinues_separates decode_forward decode_recognizes hc' hlist
    exact Or.inr ⟨parts, hparts, by rw [hvalues], hcd.trans hreaches⟩

theorem decodeBare_sound (hc : c.Steady) (h : decodeBare c = (.ok flags, e)) :
    ∃ parts, AllSpelled parts ∧ flags = distinct (Part.values parts) ∧
      c.Reaches (Part.joined parts) e := by
  obtain ⟨as, hlist, rfl⟩ := Decoder.exists_of_map h
  obtain ⟨parts, _, hparts, hvalues, ⟨rfl, -⟩, hreaches⟩ := Decoder.oneOrMore_sound
    bareContinues_separates decode_forward decode_recognizes hc hlist
  rw [List.append_nil] at hreaches
  exact ⟨parts, hparts, by rw [hvalues], hreaches⟩

end Flag

namespace StoreRequest

/-! ### What a STORE command asks for -/

variable {mode : StoreMode} {response : StoreResponse} {word w : List UInt8} {flags : List Flag}
  {r : StoreRequest} {c e : Cursor}

/-- A sign, a word and flags. -/
def rendering (mode : StoreMode) (word w : List UInt8) : List UInt8 :=
  sign mode ++ (word ++ Octet.sp :: w)

/-- The word that says whether the new flags are answered, in any letter case. -/
def Names (word : List UInt8) (response : StoreResponse) : Prop :=
  Octet.sameLetters word (Octet.ofText (responseName response)) = true

instance : Decidable (Names word response) := inferInstanceAs (Decidable (_ = true))

theorem Names.unsigned (h : Names word response) (s : List UInt8) : Unsigned (word ++ s) := by
  obtain ⟨b, u, hword, hb⟩ := starts_responseName response _ ⟨word, beq_iff_eq.1 h, rfl⟩
  rw [Sent.octets_plain] at hword
  exact ⟨b, u ++ s, by rw [hword]; rfl, hb⟩

theorem decodeMode_consumes (mode : StoreMode) : decodeMode.Consumes (sign mode) Unsigned mode :=
  fun _ _ hc hs hrest => decodeMode_of_rest hc mode hs hrest

theorem Names.decodeResponse_consumes (h : Names word response) :
    decodeResponse.Consumes word (Stops Octet.isKeywordChar) response := by
  intro c s hc hs hrest
  rw [decodeResponse, Decoder.bind_of_ok
    (Decoder.keyword_of_sameLetters (isKeyword_responseName response) h hs hc hrest)]
  cases response <;> rfl

/-- The sign and the word decide what is done with the flags, and have no part in what they are. -/
theorem Names.decode_consumes {F : List UInt8 → Prop} (h : Names word response)
    (hflags : decodeFlags.Consumes w F flags) :
    decode.Consumes (rendering mode word w) F ⟨mode, response, flags⟩ := by
  rw [decode_eq, rendering]
  refine (decodeMode_consumes mode).bind (h.decodeResponse_consumes.bind ?_ fun s _ => ?_)
    fun s _ => ?_
  · exact Decoder.Consumes.sp.bind
      (hflags.map fun flags => (⟨mode, response, flags⟩ : StoreRequest))
      fun _ _ => trivial
  · exact Stops.cons rfl _
  · rw [List.append_assoc]
    exact h.unsigned _

theorem decodeFlags_consumes_enclosed {parts : OneOrMore (Part Flag)} (h : Flag.AllSpelled parts) :
    decodeFlags.Consumes (Flag.enclosed parts) Anything (Flag.distinct (Part.values parts)) :=
  Decoder.Consumes.look h.decodeList_consumes

theorem decodeFlags_consumes_nil : decodeFlags.Consumes [Octet.lparen, Octet.rparen] Anything [] :=
  Decoder.Consumes.look Flag.decodeList_consumes_nil

theorem decodeFlags_consumes_joined {parts : OneOrMore (Part Flag)} (h : Flag.AllSpelled parts) :
    decodeFlags.Consumes (Part.joined parts) LineEnds (Flag.distinct (Part.values parts)) := by
  obtain ⟨b, v, hjoined, hb⟩ := h.exists_cons
  have hbare := h.decodeBare_consumes
  rw [hjoined] at hbare ⊢
  refine Decoder.Consumes.look ?_
  rw [if_neg (by simpa using (Flag.isStart_spec b hb).1)]
  exact hbare

/-- Flags of a STORE command: none, in parentheses, or some, in parentheses or not. -/
def Lists (w : List UInt8) (flags : List Flag) : Prop :=
  flags = [] ∧ w = [Octet.lparen, Octet.rparen] ∨
  ∃ parts, Flag.AllSpelled parts ∧ Flag.FirstOccurrences (Part.values parts) flags ∧
    (w = Flag.enclosed parts ∨ w = Part.joined parts)

theorem Lists.eq_of_nil (h : Lists w []) : w = [Octet.lparen, Octet.rparen] := by
  obtain ⟨-, rfl⟩ | ⟨parts, -, hflags, -⟩ := h
  · rfl
  · have hhead : parts.head.value ∈ Part.values parts := List.mem_cons_self ..
    exact absurd ((hflags.mem_iff _).2 hhead) List.not_mem_nil

theorem decodeFlags_sound (h : decodeFlags c = (.ok flags, e)) :
    ∃ w, Lists w flags ∧ c.Reaches w e := by
  obtain ⟨hc, b, s, -, h⟩ := Decoder.exists_of_look h
  split at h
  · obtain ⟨rfl, hreaches⟩ | ⟨parts, hparts, rfl, hreaches⟩ := Flag.decodeList_sound hc h
    · exact ⟨_, Or.inl ⟨rfl, rfl⟩, hreaches⟩
    · exact ⟨_, Or.inr ⟨parts, hparts, Flag.firstOccurrences_distinct _, Or.inl rfl⟩, hreaches⟩
  · obtain ⟨parts, hparts, rfl, hreaches⟩ := Flag.decodeBare_sound hc h
    exact ⟨_, Or.inr ⟨parts, hparts, Flag.firstOccurrences_distinct _, Or.inr rfl⟩, hreaches⟩

theorem Lists.exists_cons (h : Lists w flags) :
    ∃ b v, w = b :: v ∧ Octet.isLineBreak b = false := by
  obtain ⟨-, rfl⟩ | ⟨parts, hparts, -, rfl | rfl⟩ := h
  · exact ⟨_, _, rfl, rfl⟩
  · exact ⟨_, _, rfl, rfl⟩
  · obtain ⟨b, v, hjoined, hb⟩ := hparts.exists_cons
    exact ⟨b, v, hjoined, (Flag.isStart_spec b hb).2.2⟩

theorem decodeMode_sound (h : decodeMode c = (.ok mode, e)) :
    c.Steady ∧ c.Reaches (sign mode) e := by
  obtain ⟨hc, b, s, hrest, h⟩ := Decoder.exists_of_look h
  refine ⟨hc, ?_⟩
  have hone : c.Reaches [b] (c.advance 1) := .front (w := [b]) hrest
  have hconsume := Decoder.consume_of_rest hc hrest
  split at h
  · rename_i hb
    obtain rfl : b = Octet.plus := by simpa using hb
    rw [Decoder.bind_of_ok hconsume] at h
    obtain ⟨rfl, rfl⟩ : StoreMode.add = mode ∧ c.advance 1 = e := by
      simpa [Decoder.pure_apply] using h
    exact hone
  · split at h
    · rename_i hb
      obtain rfl : b = Octet.minus := by simpa using hb
      rw [Decoder.bind_of_ok hconsume] at h
      obtain ⟨rfl, rfl⟩ : StoreMode.remove = mode ∧ c.advance 1 = e := by
        simpa [Decoder.pure_apply] using h
      exact hone
    · obtain ⟨rfl, rfl⟩ : StoreMode.replace = mode ∧ c = e := by
        simpa [Decoder.pure_apply] using h
      exact .refl c

theorem decodeResponse_sound (hc : c.Steady) (h : decodeResponse c = (.ok response, e)) :
    ∃ word, Names word response ∧ c.Reaches word e := by
  obtain ⟨text, d, hkeyword, h⟩ := Decoder.exists_of_bind h
  obtain ⟨u, ⟨-, hall, rfl⟩, hreaches⟩ := (Decoder.keyword_recognizes c).sound hc hkeyword
  have hletters := Decoder.sameLetters_of_keyword hall
  split at h
  · rename_i hname
    rw [hname] at hletters
    obtain ⟨rfl, rfl⟩ : StoreResponse.answer = response ∧ d = e := by
      simpa [Decoder.pure_apply] using h
    exact ⟨u, hletters, hreaches⟩
  · split at h
    · rename_i hname
      rw [hname] at hletters
      obtain ⟨rfl, rfl⟩ : StoreResponse.silent = response ∧ d = e := by
        simpa [Decoder.pure_apply] using h
      exact ⟨u, hletters, hreaches⟩
    · simp [Decoder.reject, Decoder.fail] at h

theorem decode_sound (h : decode c = (.ok r, e)) : ∃ word w, Names word r.response ∧
    Lists w r.flags ∧
    c.Reaches (rendering r.mode word w) e := by
  rw [decode_eq] at h
  obtain ⟨mode, d, hmode, h⟩ := Decoder.exists_of_bind h
  obtain ⟨response, d', hresponse, h⟩ := Decoder.exists_of_bind h
  obtain ⟨_, d'', hsp, h⟩ := Decoder.exists_of_bind h
  obtain ⟨flags, hflags, rfl⟩ := Decoder.exists_of_map h
  obtain ⟨hc, hcd⟩ := decodeMode_sound hmode
  obtain ⟨word, hword, hdd'⟩ := decodeResponse_sound (hcd.steady hc) hresponse
  have hd' := (hcd.trans hdd').steady hc
  obtain ⟨s, hrest, rfl⟩ := Decoder.rest_of_sp hd' hsp
  have hd'd : d'.Reaches [Octet.sp] (d'.advance 1) := .front (w := [Octet.sp]) hrest
  obtain ⟨w, hw, hreaches⟩ := decodeFlags_sound hflags
  exact ⟨word, w, hword, hw, hcd.trans (hdd'.trans (hd'd.trans hreaches))⟩

/-- Flags are not left out without parentheses. -/
theorem Names.exists_error (h : Names word response) (hc : c.Steady) {s : List UInt8}
    (hs : LineEnds s) (hrest : c.rest = rendering mode word s) :
    ∃ failure e, decode c = (.error failure, e) := by
  have hmode := decodeMode_of_rest hc mode (h.unsigned (Octet.sp :: s)) hrest
  have hc' := hc.advance (sign mode).length
  have hrest' : (c.advance (sign mode).length).rest = word ++ Octet.sp :: s := by
    rw [Cursor.rest_advance, hrest, rendering, List.drop_left]
  have hresponse := h.decodeResponse_consumes hc' (Stops.cons rfl s) hrest'
  generalize c.advance (sign mode).length = d at hmode hc' hrest' hresponse
  have hc'' := hc'.advance word.length
  have hrest'' : (d.advance word.length).rest = Octet.sp :: s := Cursor.rest_advance_append hrest'
  rw [decode_eq, Decoder.bind_of_ok hmode, Decoder.bind_of_ok hresponse,
    Decoder.bind_of_ok (Decoder.sp_of_rest hc'' hrest'')]
  rcases hflags : decodeFlags ((d.advance word.length).advance 1) with ⟨failure | flags, e⟩
  · exact ⟨failure, e, Decoder.bind_of_error hflags⟩
  · -- What would be read starts like no line break.
    obtain ⟨w, hw, hreaches⟩ := decodeFlags_sound hflags
    obtain ⟨b, v, rfl, hb⟩ := hw.exists_cons
    have heq : s = b :: (v ++ e.rest) :=
      (Cursor.rest_advance_one hrest'').symm.trans hreaches.rest_eq
    rw [heq] at hs
    simp [hs b rfl] at hb

/-- Flags are read alike in parentheses, with or without them in a STORE command, and in texts.

Some flags in parentheses, and the same in a STORE command, are read as their first occurrences, and
sign and word as what they say.  A STORE command is read as nothing else, and has no flags only
where there is nothing in the parentheses, which it needs then.  A text is a flag exactly where its
octets are read as one; renderings are the octets that are read as a whole; and what was read is
read again from its text. -/
theorem flags_agree :
    (∀ parts, Flag.AllSpelled parts → ∃ flags, Flag.FirstOccurrences (Part.values parts) flags ∧
      Flag.decodeList.Consumes (Flag.enclosed parts) Anything flags ∧
      ∀ mode response word, Names word response →
        decode.Consumes (rendering mode word (Flag.enclosed parts)) LineEnds
          ⟨mode, response, flags⟩ ∧
        decode.Consumes (rendering mode word (Part.joined parts)) LineEnds
          ⟨mode, response, flags⟩) ∧
    (Flag.decodeList.Consumes [Octet.lparen, Octet.rparen] Anything [] ∧
      ∀ mode response word, Names word response →
        decode.Consumes (rendering mode word [Octet.lparen, Octet.rparen]) LineEnds
          ⟨mode, response, []⟩ ∧
        ∀ (c : Cursor) (s : List UInt8), c.Steady → LineEnds s → c.rest = rendering mode word s →
          ∃ failure e, decode c = (.error failure, e)) ∧
    (∀ c r e, decode c = (.ok r, e) → ∃ word w, Names word r.response ∧ Lists w r.flags ∧
      (r.flags = [] → w = [Octet.lparen, Octet.rparen]) ∧ c.Reaches (rendering r.mode word w) e) ∧
    (∀ (text : String) (f : Flag) (c : Cursor), c.Steady → c.rest = Octet.ofText text →
      (Flag.ofText text = .ok f ↔ Flag.decode c = (.ok f, c.advance c.rest.length))) ∧
    (∀ (w : List UInt8) (f : Flag), Flag.Spelled w f ↔ ∀ c : Cursor, c.Steady → c.rest = w →
      Flag.decode c = (.ok f, c.advance c.rest.length)) ∧
    ∀ f, ((∃ text, Flag.ofText text = .ok f) ∨ ∃ c e, Flag.decode c = (.ok f, e)) →
      Flag.ofText f.toText = .ok f ∧
      Flag.decode.Consumes (Octet.ofText f.toText) (Stops Octet.isAtomChar) f := by
  refine ⟨fun parts hparts => ?_,
    ⟨Flag.decodeList_consumes_nil, fun mode response word hword => ?_⟩,
    fun c r e h => ?_, fun text f c hc hrest => ?_, fun w f => ⟨?_, fun h => ?_⟩, fun f h => ?_⟩
  · refine ⟨_, Flag.firstOccurrences_distinct _, hparts.decodeList_consumes,
      fun mode response word hword => ⟨?_, ?_⟩⟩
    · exact hword.decode_consumes ((decodeFlags_consumes_enclosed hparts).imp fun _ _ => trivial)
    · exact hword.decode_consumes (decodeFlags_consumes_joined hparts)
  · exact ⟨hword.decode_consumes (decodeFlags_consumes_nil.imp fun _ _ => trivial),
      fun c s hc hs hrest => hword.exists_error hc hs hrest⟩
  · obtain ⟨word, w, hword, hw, hreaches⟩ := decode_sound h
    exact ⟨word, w, hword, hw, fun hnil => (hnil ▸ hw).eq_of_nil, hreaches⟩
  · rw [Flag.ofText_eq_ok_iff, Flag.decode_all_iff hc, hrest]
  · rintro h c hc rfl
    exact (Flag.decode_all_iff hc).2 h
  · exact (Flag.decode_all_iff (Cursor.steady_ofOctets w)).1 (h _ (Cursor.steady_ofOctets w) rfl)
  · have hspelled : ∃ w, Flag.Spelled w f := by
      rcases h with ⟨text, h⟩ | ⟨c, e, h⟩
      · exact ⟨_, Flag.ofText_eq_ok_iff.1 h⟩
      · obtain ⟨w, _, hw, -⟩ := Flag.spelled_of_decode h
        exact ⟨w, hw⟩
    obtain ⟨w, hw⟩ := hspelled
    exact ⟨Flag.ofText_eq_ok_iff.2 hw.toText, hw.toText.consumes⟩

/-- A system flag that is repeated in another letter case around a keyword; a STORE command without
flags; and a system flag that is read from a text. -/
theorem flags_agree_repeated :
    let seen : Part Flag := ⟨Octet.ofText "\\Seen", .seen⟩
    let junk : Part Flag := ⟨Octet.ofText "$Junk", .keyword ⟨"$Junk"⟩⟩
    let again : Part Flag := ⟨Octet.ofText "\\sEEN", .seen⟩
    let list := Cursor.ofOctets (Octet.ofText "(\\Seen $Junk \\sEEN)")
    let bare := Cursor.ofOctets (Octet.ofText "-flags.Silent \\Seen $Junk \\sEEN\r\n")
    let none := Cursor.ofOctets (Octet.ofText "+FLAGS \r\n")
    Flag.FirstOccurrences (Part.values ⟨seen, [junk, again]⟩) [.seen, .keyword ⟨"$Junk"⟩] ∧
      Flag.decodeList list = (.ok [.seen, .keyword ⟨"$Junk"⟩], list.advance 19) ∧
      decode bare = (.ok ⟨.remove, .silent, [.seen, .keyword ⟨"$Junk"⟩]⟩, bare.advance 31) ∧
      (∃ failure e, decode none = (.error failure, e)) ∧
      Flag.ofText Flag.seen.toText = .ok .seen := by
  intro seen junk again list bare none
  obtain ⟨hlists, ⟨-, hempty⟩, -, -, -, hback⟩ := flags_agree
  have hparts : Flag.AllSpelled ⟨seen, [junk, again]⟩ :=
    List.forall_mem_cons.2 ⟨Flag.ofText_eq_ok_iff.1 rfl, List.forall_mem_cons.2
      ⟨Flag.ofText_eq_ok_iff.1 rfl, List.forall_mem_singleton.2 (Flag.ofText_eq_ok_iff.1 rfl)⟩⟩
  obtain ⟨flags, hfirst, hlist, hstore⟩ := hlists _ hparts
  have hread := @hlist list [] (Cursor.steady_ofOctets _) trivial (by decide)
  have hvalue : flags = [.seen, .keyword ⟨"$Junk"⟩] :=
    (hfirst.unique (Flag.firstOccurrences_distinct _)).trans (by decide)
  rw [hvalue] at hfirst hread hstore
  have hbreak : LineEnds (Octet.ofText "\r\n") := fun b hb => by
    obtain rfl : Octet.cr = b := Option.some.inj hb
    rfl
  exact ⟨hfirst, hread,
    (hstore .remove .silent (Octet.ofText "flags.Silent") (by decide)).2 (Cursor.steady_ofOctets _)
      hbreak (by decide),
    (hempty .add .answer (Octet.ofText "FLAGS") (by decide)).2 none _
      (Cursor.steady_ofOctets _) hbreak
      (by decide),
    (hback .seen (Or.inl ⟨"\\sEEN", rfl⟩)).1⟩

end StoreRequest

end ImapRequest

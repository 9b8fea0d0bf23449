import ImapRequest.Proofs.Grammar.Criteria

/-!
# Nested search keys

Keys are rejected where they are nested deeper than `SearchKey.maxLevel`, whatever becomes of them:
also pairs of parentheses count that leave no trace in the key.  So the octets are looked at without
the guard first, and the levels at which they have keys are compared with it.

* `SearchKey.Spelled` : the grammar of keys without a guard, with the levels that its words need;
* `SearchKey.Spelled.depth_le` : a key is not deeper than the levels of its octets;
* `SearchKey.derives_iff_spelled` : the guard accepts the words whose levels are within it;
* `SearchKey.decodeWithin_refuses` : all others are refused, at their first key that is too deep;
* `SearchKey.nesting_exact` : the same for all keys of a command.
-/

namespace ImapRequest

/-- A key, and the level of the deepest key in its octets where it is at level 1 itself. -/
structure Nested where
  key : SearchKey
  levels : Nat

namespace Nested

/-- The level of the deepest of some keys. -/
def deepest : List Nested → Nat
  | [] => 0
  | k :: ks => max k.levels (deepest ks)

theorem deepest_le_iff {ks : List Nested} {n : Nat} : deepest ks ≤ n ↔ ∀ k ∈ ks, k.levels ≤ n := by
  induction ks with
  | nil => simp [deepest]
  | cons k ks ih => rw [deepest, max_le_iff, ih, List.forall_mem_cons]

end Nested

namespace SearchKey

/-! ### The grammar without a guard -/

/-- The octets that spell a key, however deep it is.  Every `NOT`, every `OR` and every pair of
parentheses adds a level. -/
inductive Spelled (ctx : Context) : List UInt8 → Nested → Prop
  | sequenceSet {w : List UInt8} {set : SequenceSet} (hset : SequenceSet.Spelled w set) :
    Spelled ctx w ⟨.sequenceSet set, 1⟩
  | leaf {word : String} {u v : List UInt8} {key : SearchKey}
    (hword : Octet.sameLetters u (Octet.ofText word) = true) (hkey : Leaf ctx word v key) :
    Spelled ctx (u ++ v) ⟨key, 1⟩
  | not {u v : List UInt8} {k : Nested}
    (hword : Octet.sameLetters u (Octet.ofText "NOT") = true) (hkey : Spelled ctx v k) :
    Spelled ctx (u ++ Octet.sp :: v) ⟨.not k.key, 1 + k.levels⟩
  | or {u v w : List UInt8} {left right : Nested}
    (hword : Octet.sameLetters u (Octet.ofText "OR") = true) (hleft : Spelled ctx v left)
    (hright : Spelled ctx w right) :
    Spelled ctx (u ++ Octet.sp :: (v ++ Octet.sp :: w))
      ⟨.or left.key right.key, 1 + max left.levels right.levels⟩
  | group {parts : OneOrMore (Part Nested)} {key : SearchKey}
    (hparts : ∀ p ∈ parts.toList, Spelled ctx p.octets p.value)
    (hkey : key.Together ((Part.values parts).map Nested.key)) :
    Spelled ctx (Octet.lparen :: (Part.joined parts ++ [Octet.rparen]))
      ⟨key, 1 + Nested.deepest (Part.values parts)⟩

/-- The octets that spell keys next to each other, and the key that matches when all of them do.
Standing next to each other adds no level. -/
def Juxtaposed (ctx : Context) (w : List UInt8) (k : Nested) : Prop :=
  ∃ parts : OneOrMore (Part Nested), (∀ p ∈ parts.toList, Spelled ctx p.octets p.value) ∧
    k.key.Together ((Part.values parts).map Nested.key) ∧
    k.levels = Nested.deepest (Part.values parts) ∧ w = Part.joined parts

/-- The octets that spell all keys of a command, however deep they are, in a character set that may
be named before them. -/
inductive CriteriaSpelled (ctx : Context) : List UInt8 → Option Charset × Nested → Prop
  | keys {w : List UInt8} {k : Nested} (hkeys : Juxtaposed ctx w k) :
    CriteriaSpelled ctx w (none, k)
  | inCharset {u v w : List UInt8} {charset : Charset} {k : Nested}
    (hword : Octet.sameLetters u (Octet.ofText "CHARSET") = true)
    (hcharset : Charset.Spelled ctx v charset) (hkeys : Juxtaposed { ctx with charset } w k) :
    CriteriaSpelled ctx (u ++ Octet.sp :: (v ++ Octet.sp :: w)) (some charset, k)

variable {ctx : Context} {w : List UInt8} {k : Nested} {key : SearchKey} {level : Nat}

theorem Juxtaposed.group (h : Juxtaposed ctx w k) :
    Spelled ctx (Octet.lparen :: (w ++ [Octet.rparen])) ⟨k.key, 1 + k.levels⟩ := by
  obtain ⟨parts, hparts, hkey, hlevels, rfl⟩ := h
  rw [hlevels]
  exact .group hparts hkey

/-- What keys start with. -/
theorem Spelled.not_isLineBreak (h : Spelled ctx w k) :
    ∃ b ∈ w.head?, Octet.isLineBreak b = false := by
  have hstart : ∀ b, SequenceSet.IsRangeStart b ∨ Octet.isLetter b = true →
      Octet.isLineBreak b = false := Octet.forall_octet (by decide +kernel)
  have hletter : ∀ {word : String} {u v : List UInt8},
      (Octet.ofText word).head?.any Octet.isLetter = true →
      Octet.sameLetters u (Octet.ofText word) = true →
      ∃ b ∈ (u ++ v).head?, Octet.isLineBreak b = false := by
    intro word u v hword hu
    obtain ⟨b, u, rfl, hb⟩ := exists_letter hword hu
    exact ⟨b, rfl, hstart b (Or.inr hb)⟩
  cases h with
  | sequenceSet hset =>
    obtain ⟨b, v, rfl, hb⟩ := hset.exists_cons
    exact ⟨b, rfl, hstart b (Or.inl hb)⟩
  | leaf hword hkey =>
    obtain ⟨form, hform, -⟩ := hkey.exists_form (D := fun _ _ => False)
    exact hletter (isName_of_lookup hform).2.1 hword
  | not hword => exact hletter rfl hword
  | or hword => exact hletter rfl hword
  | group => exact ⟨Octet.lparen, rfl, rfl⟩

/-! ### Depth -/

theorem Leaf.depth_eq {word : String} (h : Leaf ctx word w key) : key.depth = 1 := by
  cases h <;> rfl

theorem maxDepth_le_deepest {ks : List Nested} (h : ∀ k ∈ ks, k.key.depth ≤ k.levels) :
    maxDepth (ks.map Nested.key) ≤ Nested.deepest ks := by
  induction ks with
  | nil => exact Nat.le_refl 0
  | cons k ks ih =>
    obtain ⟨hk, hks⟩ := List.forall_mem_cons.1 h
    rw [List.map_cons, maxDepth, Nested.deepest]
    exact max_le_max hk (ih hks)

/-- A conjunction is one deeper than its members, and a single key is no conjunction. -/
theorem depth_le_of_together {ks : List Nested} (h : ∀ k ∈ ks, k.key.depth ≤ k.levels)
    (hkey : key.Together (ks.map Nested.key)) : key.depth ≤ 1 + Nested.deepest ks := by
  have hle := maxDepth_le_deepest h
  rcases hkey with hsingle | ⟨-, rfl⟩
  · rw [hsingle, maxDepth] at hle
    have := le_max_left key.depth (maxDepth [])
    omega
  · rw [depth]
    omega

theorem Spelled.depth_le (h : Spelled ctx w k) : k.key.depth ≤ k.levels := by
  induction h with
  | sequenceSet => exact Nat.le_refl 1
  | leaf _ hkey => exact Nat.le_of_eq hkey.depth_eq
  | not _ _ ih =>
    simp only [depth]
    omega
  | or _ _ _ ihleft ihright =>
    simp only [depth]
    omega
  | group _ hkey ih => exact depth_le_of_together (List.forall_mem_map.2 ih) hkey

theorem Juxtaposed.depth_le (h : Juxtaposed ctx w k) : k.key.depth ≤ 1 + k.levels := by
  obtain ⟨parts, hparts, hkey, hlevels, -⟩ := h
  rw [hlevels]
  exact depth_le_of_together (List.forall_mem_map.2 fun p hp => (hparts p hp).depth_le) hkey

/-! ### The guard -/

theorem conjoined_of_nested {D : List UInt8 → SearchKey → Prop} {parts : OneOrMore (Part Nested)}
    (hparts : ∀ p ∈ parts.toList, D p.octets p.value.key)
    (hkey : key.Together ((Part.values parts).map Nested.key)) :
    Conjoined D (Part.joined parts) key := by
  refine ⟨Part.mapValues (·.value.key) parts, ?_, ?_, (Part.joined_mapValues ..).symm⟩
  · rw [Part.toList_mapValues]
    exact List.forall_mem_map.2 hparts
  · rw [Part.values, List.map_map] at hkey
    rw [Part.values_mapValues]
    exact hkey

/-- Within the guard the levels of the octets are forgotten. -/
theorem Spelled.derives (h : Spelled ctx w k) :
    ∀ {level : Nat}, level + k.levels ≤ maxLevel + 1 → Derives ctx level w k.key := by
  induction h with
  | sequenceSet hset => exact fun hle => .sequenceSet (Nat.le_of_succ_le_succ hle) hset
  | leaf hword hkey => exact fun hle => .leaf (Nat.le_of_succ_le_succ hle) hword hkey
  | not hword _ ih =>
    intro level hle
    dsimp only at hle
    exact .not (by omega) hword (ih (by omega))
  | or hword _ _ ihleft ihright =>
    intro level hle
    dsimp only at hle
    exact .or (by omega) hword (ihleft (by omega)) (ihright (by omega))
  | @group parts key _ hkey ih =>
    intro level hle
    dsimp only at hle
    have hdeepest := Nested.deepest_le_iff.1 (Nat.le_refl (Nested.deepest (Part.values parts)))
    refine derives_lparen.2 ⟨by omega, _, conjoined_of_nested (fun p hp => ih p hp ?_) hkey, rfl⟩
    have := hdeepest p.value (List.mem_map_of_mem hp)
    omega

/-- The levels of keys next to each other, where each of them has levels within some bound. -/
theorem exists_juxtaposed {parts : OneOrMore (Part SearchKey)} (bound : Nat)
    (hparts : ∀ p ∈ parts.toList, ∃ n, Spelled ctx p.octets ⟨p.value, n⟩ ∧ n ≤ bound)
    (hkey : key.Together (Part.values parts)) :
    ∃ n, Juxtaposed ctx (Part.joined parts) ⟨key, n⟩ ∧ n ≤ bound := by
  choose! levels hlevels using hparts
  let parts' := Part.mapValues (fun p => (⟨p.value, levels p⟩ : Nested)) parts
  refine ⟨Nested.deepest (Part.values parts'), ⟨parts', ?_, ?_, rfl,
    (Part.joined_mapValues ..).symm⟩, Nested.deepest_le_iff.2 ?_⟩
  · rw [Part.toList_mapValues]
    exact List.forall_mem_map.2 fun p hp => (hlevels p hp).1
  · rw [Part.values_mapValues, List.map_map]
    exact hkey
  · rw [Part.values_mapValues]
    exact List.forall_mem_map.2 fun p hp => (hlevels p hp).2

theorem exists_spelled_of_derives (h : Derives ctx level w key) :
    ∃ n, Spelled ctx w ⟨key, n⟩ ∧ level + n ≤ maxLevel + 1 := by
  induction h with
  | sequenceSet hlevel hset => exact ⟨1, .sequenceSet hset, Nat.succ_le_succ hlevel⟩
  | leaf hlevel hword hkey => exact ⟨1, .leaf hword hkey, Nat.succ_le_succ hlevel⟩
  | not _ hword _ ih =>
    obtain ⟨n, hn, hle⟩ := ih
    exact ⟨1 + n, .not hword hn, by omega⟩
  | or _ hword _ _ ihleft ihright =>
    obtain ⟨m, hm, hmle⟩ := ihleft
    obtain ⟨n, hn, hnle⟩ := ihright
    exact ⟨1 + max m n, .or hword hm hn, by omega⟩
  | @group level parts key hlevel _ hkey ih =>
    obtain ⟨n, hn, hle⟩ := exists_juxtaposed (maxLevel - level) (fun p hp => by
      obtain ⟨n, hn, hle⟩ := ih p hp
      exact ⟨n, hn, by omega⟩) hkey
    exact ⟨1 + n, hn.group, by omega⟩

/-- What the guard accepts at some level. -/
theorem derives_iff_spelled :
    Derives ctx level w key ↔ ∃ n, Spelled ctx w ⟨key, n⟩ ∧ level + n ≤ maxLevel + 1 :=
  ⟨exists_spelled_of_derives, fun ⟨_, h, hle⟩ => h.derives hle⟩

/-- What the guard accepts of keys next to each other. -/
theorem conjoined_iff_juxtaposed (hlevel : level ≤ maxLevel + 1) :
    Conjoined (Derives ctx level) w key ↔
      ∃ n, Juxtaposed ctx w ⟨key, n⟩ ∧ level + n ≤ maxLevel + 1 := by
  constructor
  · rintro ⟨parts, hparts, hkey, rfl⟩
    obtain ⟨n, hn, hle⟩ := exists_juxtaposed (maxLevel + 1 - level) (fun p hp => by
      obtain ⟨n, hn, hle⟩ := exists_spelled_of_derives (hparts p hp)
      exact ⟨n, hn, by omega⟩) hkey
    exact ⟨n, hn, by omega⟩
  · rintro ⟨n, ⟨parts, hparts, hkey, rfl, rfl⟩, hle⟩
    have hdeepest := Nested.deepest_le_iff.1 (Nat.le_refl (Nested.deepest (Part.values parts)))
    refine conjoined_of_nested (fun p hp => (hparts p hp).derives ?_) hkey
    have := hdeepest p.value (List.mem_map_of_mem hp)
    omega

/-! ### Refusal -/

/-- The octets of a key that needs more levels than there are. -/
def Deeper (ctx : Context) (levels : Nat) (w : List UInt8) : Prop :=
  ∃ k, Spelled ctx w k ∧ levels < k.levels

/-- What is reported of a key that is nested too deep. -/
abbrev tooDeep : Failure := .rejected (.nestedTooDeep maxLevel)

section Refusal

variable {levels : Nat} {c : Cursor} {s : List UInt8}

/-- The first of some parts that is too deep. -/
theorem exists_first_deeper {parts : OneOrMore (Part Nested)}
    (h : levels < Nested.deepest (Part.values parts)) :
    ∃ before p after, parts.toList = before ++ p :: after ∧ levels < p.value.levels ∧
      ∀ q ∈ before, q.value.levels ≤ levels := by
  cases hfind : parts.toList.find? (fun p => decide (levels < p.value.levels)) with
  | none =>
    refine absurd (Nested.deepest_le_iff.2 (List.forall_mem_map.2 fun p hp => ?_))
      (Nat.not_le_of_lt h)
    simpa using List.find?_eq_none.1 hfind p hp
  | some p =>
    obtain ⟨hp, before, after, hparts, hbefore⟩ := List.find?_eq_some_iff_append.1 hfind
    exact ⟨before, p, after, hparts, by simpa using hp, fun q hq => by simpa using hbefore q hq⟩

/-- A key with a keyword is read by the form of it. -/
theorem decodeWithin_of_word {u : List UInt8} {word : String} (form : SearchForm)
    (hform : forms.lookup word = some form)
    (hword : Octet.sameLetters u (Octet.ofText word) = true)
    (hs : Stops Octet.isKeywordChar s) (hc : c.Steady) (hrest : c.rest = u ++ s) :
    decodeWithin ctx (levels + 1) c =
      decodeForm ctx (decodeWithin ctx levels) form (c.advance u.length) := by
  obtain ⟨hkeyword, hletter, -⟩ := isName_of_lookup hform
  obtain ⟨b, v, rfl, hb⟩ := exists_letter hletter hword
  rw [decodeWithin_of_letter levels hc hrest hb,
    Decoder.bind_of_ok (Decoder.keyword_of_sameLetters hkeyword hword hs hc hrest),
    decodeNamed, hform]

/-- Keys next to each other are refused at the first of them that is. -/
theorem oneOrMore_refuses_deeper {more : Decoder Bool} {T : List UInt8 → List UInt8 → Prop}
    (hmore : Decoder.Separates more T) (hlevels : levels ≤ maxLevel + 1)
    (hrefuses : Decoder.Refuses (decodeWithin ctx levels) (Deeper ctx levels) KeyEnds tooDeep) :
    Decoder.Refuses (Decoder.oneOrMore more (decodeWithin ctx levels))
      (fun w => ∃ k, Juxtaposed ctx w k ∧ levels < k.levels) KeyEnds tooDeep := by
  rintro c _ s hc ⟨k, ⟨parts, hparts, -, hk, rfl⟩, hdeep⟩ hs hrest
  obtain ⟨before, p, after, hsplit, hp, hbefore⟩ := exists_first_deeper (hk ▸ hdeep)
  have hmem : ∀ q ∈ before ++ p :: after, Spelled ctx q.octets q.value := hsplit ▸ hparts
  have hstart : ∀ w, Deeper ctx levels w → ∃ b ∈ w.head?, Octet.isLineBreak b = false := by
    rintro w ⟨k, hk, -⟩
    exact hk.not_isLineBreak
  have hread : ∀ q ∈ before.map fun q => (⟨q.octets, q.value.key⟩ : Part SearchKey),
      Derives ctx (maxLevel + 1 - levels) q.octets q.value := by
    refine List.forall_mem_map.2 fun q hq => (hmem q (by simp [hq])).derives ?_
    have := hbefore q hq
    omega
  rw [Part.joined_of_toList hsplit, ← List.append_assoc, List.append_assoc,
    ← Part.leading_map (fun q => q.value.key)] at hrest
  exact Decoder.oneOrMore_refuses hmore (decodeWithin_forward ctx levels)
    (decodeWithin_recognizes levels _ (by omega)) hrefuses (fun w key h => h.not_isLineBreak) hstart
    keyEnds_sp hc ⟨_, p.octets, hread, ⟨p.value, hmem p (by simp), hp⟩, rfl⟩
    (Part.spaced_ends keyEnds_sp after hs) hrest

/-- The keys behind a keyword are refused where one of them is. -/
theorem decodeForm_refuses (hlevels : levels ≤ maxLevel + 1)
    (hrefuses : Decoder.Refuses (decodeWithin ctx levels) (Deeper ctx levels) KeyEnds tooDeep) :
    Decoder.Refuses (decodeForm ctx (decodeWithin ctx levels) .not)
      (fun t => ∃ w, Deeper ctx levels w ∧ t = Octet.sp :: w) KeyEnds tooDeep ∧
    Decoder.Refuses (decodeForm ctx (decodeWithin ctx levels) .or)
      (fun t => ∃ v w left right, Spelled ctx v left ∧ Spelled ctx w right ∧
        levels < max left.levels right.levels ∧ t = Octet.sp :: (v ++ Octet.sp :: w))
      KeyEnds tooDeep := by
  refine ⟨(hrefuses.bind _).spaced, ?_⟩
  rintro c _ s hc ⟨v, w, left, right, hleft, hright, hdeep, rfl⟩ hs hrest
  refine (Decoder.Refuses.pair (decodeWithin_recognizes levels (maxLevel + 1 - levels) (by omega))
    hrefuses hrefuses keyEnds_sp SearchKey.or).spaced hc ⟨_, ⟨v, w, ?_, rfl⟩, rfl⟩ hs hrest
  by_cases hlt : levels < left.levels
  · exact Or.inl ⟨left, hleft, hlt⟩
  · exact Or.inr ⟨⟨left.key, hleft.derives (by omega)⟩, right, hright, by omega⟩

/-- By induction on the levels that are left: a key that needs more holds one that needs more than
there are inside it. -/
theorem decodeWithin_refuses (ctx : Context) (levels : Nat) (hlevels : levels ≤ maxLevel + 1) :
    Decoder.Refuses (decodeWithin ctx levels) (Deeper ctx levels) KeyEnds tooDeep := by
  induction levels with
  | zero => exact fun c _ _ _ _ _ _ => ⟨c, rfl⟩
  | succ levels ih =>
    have hle : levels ≤ maxLevel + 1 := Nat.le_of_succ_le hlevels
    obtain ⟨hnot, hor⟩ := decodeForm_refuses hle (ih hle)
    rintro c _ s hc ⟨k, hk, hdeep⟩ hs hrest
    cases hk with
    | sequenceSet | leaf =>
      exact absurd hdeep (Nat.not_lt_of_le (Nat.succ_le_succ (Nat.zero_le levels)))
    | @not u v k hword hkey =>
      dsimp only at hdeep
      rw [List.append_assoc] at hrest
      rw [decodeWithin_of_word .not rfl hword ((keyEnds_sp _).stops rfl rfl rfl rfl)
        hc.steady hrest]
      exact hnot (hc.advance _) ⟨v, ⟨k, hkey, by omega⟩, rfl⟩ hs
        ((Cursor.Reaches.front hrest).rest_eq_of hrest)
    | @or u v w left right hword hleft hright =>
      dsimp only at hdeep
      rw [List.append_assoc] at hrest
      rw [decodeWithin_of_word .or rfl hword ((keyEnds_sp _).stops rfl rfl rfl rfl)
        hc.steady hrest]
      exact hor (hc.advance _) ⟨v, w, left, right, hleft, hright, by omega, rfl⟩ hs
        ((Cursor.Reaches.front hrest).rest_eq_of hrest)
    | @group parts key hparts hkey =>
      dsimp only at hdeep
      rw [List.cons_append, List.append_assoc] at hrest
      have hkeys : Juxtaposed ctx (Part.joined parts) ⟨key, Nested.deepest (Part.values parts)⟩ :=
        ⟨parts, hparts, hkey, rfl, rfl⟩
      have hlt : levels < Nested.deepest (Part.values parts) := by omega
      obtain ⟨e, herror⟩ := oneOrMore_refuses_deeper Decoder.listContinues_separates hle (ih hle)
        (hc.advance 1) ⟨_, hkeys, hlt⟩ (keyEnds_rparen s) (Cursor.rest_advance_one hrest)
      rw [decodeWithin, Decoder.bind_of_ok (Decoder.peek_of_rest hc.steady hrest),
        if_pos (beq_self_eq_true _), Decoder.bind_of_ok (Decoder.consume_of_rest hc.steady hrest),
        Decoder.bind_of_error herror]
      exact ⟨e, rfl⟩

/-! ### All keys of a command -/

theorem CriteriaSpelled.criteria {charset : Option Charset} (h : CriteriaSpelled ctx w (charset, k))
    (hlevels : k.levels ≤ maxLevel) : Criteria ctx w (charset, k.key) := by
  have hle : 1 + k.levels ≤ maxLevel + 1 := by omega
  cases h with
  | keys hkeys => exact .keys ((conjoined_iff_juxtaposed (by omega)).2 ⟨_, hkeys, hle⟩)
  | inCharset hword hcharset hkeys =>
    exact .inCharset hword hcharset ((conjoined_iff_juxtaposed (by omega)).2 ⟨_, hkeys, hle⟩)

theorem CriteriaSpelled.depth_le {charset : Option Charset}
    (h : CriteriaSpelled ctx w (charset, k)) :
    k.key.depth ≤ 1 + k.levels := by
  cases h with
  | keys hkeys => exact hkeys.depth_le
  | inCharset _ _ hkeys => exact hkeys.depth_le

theorem exists_criteriaSpelled {charset : Option Charset} (h : Criteria ctx w (charset, key)) :
    ∃ n, CriteriaSpelled ctx w (charset, ⟨key, n⟩) ∧ n ≤ maxLevel := by
  cases h with
  | keys hkeys =>
    obtain ⟨n, hn, hle⟩ := (conjoined_iff_juxtaposed (by omega)).1 hkeys
    exact ⟨n, .keys hn, by omega⟩
  | inCharset hword hcharset hkeys =>
    obtain ⟨n, hn, hle⟩ := (conjoined_iff_juxtaposed (by omega)).1 hkeys
    exact ⟨n, .inCharset hword hcharset hn, by omega⟩

theorem decodeKeys_refuses (ctx : Context) : Decoder.Refuses (decodeKeys ctx)
    (fun w => ∃ k, Juxtaposed ctx w k ∧ maxLevel < k.levels) KeyEnds tooDeep := by
  have heq : decodeKeys ctx = (do
      return conjunction (← Decoder.oneOrMore (criteriaContinue ctx.leniency) (decode ctx 1))) := by
    simp only [decodeKeys, decodeConjunction, Decoder.oneOrMore, bind_assoc, pure_bind]
  rw [heq]
  exact (oneOrMore_refuses_deeper (criteriaContinue_separates ctx.leniency) (Nat.le_succ _)
    (decodeWithin_refuses ctx _ (Nat.le_succ _))).bind _

theorem decodeCriteria_refuses {charset : Option Charset} (hc : c.Listens)
    (hw : CriteriaSpelled ctx w (charset, k)) (hdeep : maxLevel < k.levels) (hs : LineEnds s)
    (hrest : c.rest = w ++ s) : ∃ e, decodeCriteria ctx c = (.error tooDeep, e) := by
  cases hw with
  | keys hkeys =>
    obtain ⟨e, herror⟩ := decodeKeys_refuses ctx hc ⟨k, hkeys, hdeep⟩ hs.keyEnds hrest
    have hne : ∀ d, Decoder.keyword c ≠ (.ok "CHARSET", d) := by
      intro d hkeyword
      rw [decodeKeys, Decoder.bind_of_error (decode_of_charset hc.steady hkeyword)] at herror
      simp at herror
    rw [decodeCriteria_of_ne hc.steady hne, Decoder.bind_of_error herror]
    exact ⟨e, rfl⟩
  | @inCharset u v w charset k hword hcharset hkeys =>
    have hrest₁ : c.rest = u ++ (Octet.sp :: (v ++ [Octet.sp]) ++ (w ++ s)) := by
      rw [hrest]
      simp
    have hkeyword := Decoder.keyword_of_sameLetters (by decide) hword
      ((keyEnds_sp _).stops rfl rfl rfl rfl) hc.steady hrest₁
    obtain ⟨d, hrun, hreaches, hd⟩ := (decodeCharset_recognizes ctx _).complete (hc.advance _)
      ⟨v, hcharset, rfl⟩ trivial ((Cursor.Reaches.front hrest₁).rest_eq_of hrest₁)
    obtain ⟨e, herror⟩ := decodeKeys_refuses { ctx with charset } hd ⟨k, hkeys, hdeep⟩ hs.keyEnds
      (hreaches.rest_eq_of ((Cursor.Reaches.front hrest₁).rest_eq_of hrest₁))
    rw [decodeCriteria_of_charset hc.steady hkeyword, Decoder.bind_of_ok hrun,
      Decoder.bind_of_error herror]
    exact ⟨e, rfl⟩

end Refusal

/-- The guard bounds the depth of what is decoded, and refuses nothing else than what is nested too
deep: a key that is decoded at some level is so much less deep, and the octets of keys in a line are
decoded if no key in them is at a level above the deepest, and are refused if one is. -/
theorem nesting_exact (ctx : Context) :
    (∀ level c key e, decode ctx level c = (.ok key, e) → key.depth + level ≤ maxLevel + 1) ∧
    (∀ c criteria e, decodeCriteria ctx c = (.ok criteria, e) →
      criteria.2.depth ≤ maxLevel + 1) ∧
    (∀ w charset k s (c : Cursor), CriteriaSpelled ctx w (charset, k) → LineEnds s → c.Listens →
      c.rest = w ++ s →
      (k.levels ≤ maxLevel →
        ∃ e, decodeCriteria ctx c = (.ok (charset, k.key), e) ∧ c.Reaches w e) ∧
      (maxLevel < k.levels → ∃ e error, decodeCriteria ctx c = (.error (.rejected error), e) ∧
        error = .nestedTooDeep maxLevel ∧ error.kind = .illegalArguments)) ∧
    maxLevel = 128 := by
  refine ⟨?_, ?_, ?_, rfl⟩
  · intro level c key e hrun
    obtain ⟨w, hw, -⟩ := (decode_recognizes ctx level c).sound (steady_of_decode hrun) hrun
    obtain ⟨n, hn, hle⟩ := exists_spelled_of_derives hw
    have hdepth : key.depth ≤ n := hn.depth_le
    omega
  · rintro c ⟨charset, key⟩ e hrun
    obtain ⟨w, t, hw, -, -⟩ := decodeCriteria_sound (steady_of_decodeCriteria hrun) hrun
    obtain ⟨n, hn, hle⟩ := exists_criteriaSpelled hw
    have hdepth : key.depth ≤ 1 + n := hn.depth_le
    dsimp only
    omega
  · intro w charset k s c hw hs hc hrest
    refine ⟨fun hle => ?_, fun hdeep => ?_⟩
    · obtain ⟨e, hrun, hreaches⟩ :=
        decodeCriteria_complete hc (hw.criteria hle) (Or.inl rfl) hs hrest
      exact ⟨e, hrun, List.append_nil w ▸ hreaches⟩
    · obtain ⟨e, herror⟩ := decodeCriteria_refuses hc hw hdeep hs hrest
      exact ⟨e, _, herror, rfl, rfl⟩

/-- `NOT` as often as wanted in front of a key. -/
theorem spelled_nots (ctx : Context) (n : Nat) :
    Spelled ctx ((List.replicate n (Octet.ofText "NOT ")).flatten ++ Octet.ofText "SEEN")
      ⟨SearchKey.not^[n] .seen, n + 1⟩ := by
  induction n with
  | zero =>
    exact .leaf (u := Octet.ofText "SEEN") (by decide) .seen
  | succ n ih =>
    rw [List.replicate_succ, List.flatten_cons, List.append_assoc, Function.iterate_succ_apply',
      Nat.add_comm (n + 1)]
    exact .not (u := Octet.ofText "NOT") (by decide) ih

/-- The deepest key that is accepted, and one that is a level deeper. -/
theorem nesting_exact_nots :
    (∃ e, decode {} 1 (Cursor.ofOctets (Octet.ofText "(NOT SEEN))")) = (.ok (.not .seen), e) ∧
      (SearchKey.not .seen).depth + 1 ≤ maxLevel + 1) ∧
    (∃ e, decodeCriteria {} (Cursor.ofOctets
        ((List.replicate 127 (Octet.ofText "NOT ")).flatten ++ Octet.ofText "SEEN" ++
          [Octet.cr, Octet.lf])) = (.ok (none, SearchKey.not^[127] .seen), e) ∧
      e.rest = [Octet.cr, Octet.lf] ∧ (SearchKey.not^[127] .seen).depth ≤ maxLevel + 1) ∧
    ∃ e, decodeCriteria {} (Cursor.ofOctets
        ((List.replicate 128 (Octet.ofText "NOT ")).flatten ++ Octet.ofText "SEEN" ++
          [Octet.cr, Octet.lf])) = (.error (.rejected (.nestedTooDeep maxLevel)), e) := by
  have hrest (bs : List UInt8) : (Cursor.ofOctets bs).rest = bs := rfl
  have hcriteria (n : Nat) : CriteriaSpelled {}
      ((List.replicate n (Octet.ofText "NOT ")).flatten ++ Octet.ofText "SEEN")
      (none, ⟨SearchKey.not^[n] .seen, n + 1⟩) :=
    .keys ⟨⟨⟨_, ⟨SearchKey.not^[n] .seen, n + 1⟩⟩, []⟩,
      List.forall_mem_singleton.2 (spelled_nots {} n), Or.inl rfl, (Nat.max_zero _).symm,
      (List.append_nil _).symm⟩
  have hends : LineEnds [Octet.cr, Octet.lf] := by simp [LineEnds, Octet.isLineBreak]
  have hrun : decode {} 1 (Cursor.ofOctets (Octet.ofText "(NOT SEEN))")) =
      (.ok (.not .seen), (Cursor.ofOctets (Octet.ofText "(NOT SEEN))")).advance 10) := rfl
  refine ⟨⟨_, hrun, (nesting_exact {}).1 1 _ _ _ hrun⟩, ?_, ?_⟩
  · obtain ⟨e, hrun, hreaches⟩ := ((nesting_exact {}).2.2.1 _ none _ [Octet.cr, Octet.lf] _
      (hcriteria 127) hends (Cursor.listens_ofOctets _) (hrest _)).1 (by decide)
    have hdepth := (nesting_exact {}).2.1 _ _ e hrun
    exact ⟨e, hrun, hreaches.rest_eq_of (hrest _), hdepth⟩
  · obtain ⟨e, error, herror, rfl, -⟩ := ((nesting_exact {}).2.2.1 _ none _ [Octet.cr, Octet.lf] _
      (hcriteria 128) hends (Cursor.listens_ofOctets _) (hrest _)).2 (by decide)
    exact ⟨e, herror⟩

end SearchKey

end ImapRequest

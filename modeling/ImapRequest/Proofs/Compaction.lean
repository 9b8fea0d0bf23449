import ImapRequest.Proofs.Coverage
import Mathlib.Data.List.Nodup
import Mathlib.Data.List.Perm.Subperm
import Mathlib.Tactic.Choose

/-!
# The shortest list of ranges

Compact ranges have gaps between them, so they are the blocks of neighbouring numbers that are
covered: nothing but the numbers matters, and no other list of ranges with the same numbers is
shorter, since none of its ranges reaches over a gap.

The bounds of ranges are 32-bit words.  A word has no successor where it is the largest one, so the
successor that is compared with stays there; nothing else in a sweep could leave the words.

* `IdRange.eq_of_covers` : ranges with gaps between them are determined by their numbers;
* `IdRange.length_le_of_covers` : and they are the fewest;
* `IdRange.compact_words` : compacting in 32-bit words;
* `IdRange.compact_canonical` : all that compacting does.
-/

namespace ImapRequest

namespace IdRange

variable {rs ss : List IdRange} {r last : IdRange} {id : Nat}

/-! ### Ranges with gaps between them -/

/-- Behind every range but the last there is a number in no range. -/
def Apart (rs : List IdRange) : Prop := rs.Pairwise fun a b => a.high + 1 < b.low

namespace Apart

theorem separated (h : Apart rs) : Separated rs := h.imp Nat.lt_of_succ_lt

theorem not_covers_succ_high (h : Apart rs) (hr : r ∈ rs) : ¬ Covers rs (r.high + 1) := by
  rintro ⟨next, hnext, hlow, hhigh⟩
  have hle := r.low_le_high
  have hne : r ≠ next := by
    rintro rfl
    exact Nat.not_succ_le_self _ hhigh
  have hapart := apart_of_ne h hr hnext hne
  omega

/-- Neighbouring numbers that are covered are in one range. -/
theorem bridges_iff (h : Apart rs) : Bridges rs id ↔ Covers rs id ∧ Covers rs (id + 1) := by
  constructor
  · rintro ⟨r, hr, hlow, hhigh⟩
    exact ⟨⟨r, hr, hlow, Nat.le_of_lt hhigh⟩, r, hr, Nat.le_succ_of_le hlow, hhigh⟩
  · rintro ⟨⟨r, hr, hlow, hhigh⟩, hnext⟩
    refine ⟨r, hr, hlow, Nat.lt_of_le_of_ne hhigh ?_⟩
    rintro rfl
    exact h.not_covers_succ_high hr hnext

end Apart

theorem eq_of_covers (hrs : Apart rs) (hss : Apart ss) (h : ∀ id, Covers rs id ↔ Covers ss id) :
    rs = ss := by
  refine hrs.separated.eq_of_covers_of_bridges hss.separated h fun id => ?_
  rw [hrs.bridges_iff, hss.bridges_iff, h, h]

/-- By counting: every range starts in some range of the other list, and no two start in the same,
which would reach over the gap between them. -/
theorem length_le_of_covers (hrs : Apart rs) (h : ∀ id, Covers ss id ↔ Covers rs id) :
    rs.length ≤ ss.length := by
  have hstart : ∀ r ∈ rs, ∃ s ∈ ss, s.low ≤ r.low ∧ r.low ≤ s.high :=
    fun r hr => (h r.low).2 ⟨r, hr, Nat.le_refl _, r.low_le_high⟩
  choose! start hmem hlow hhigh using hstart
  have hgap : ∀ {a b : IdRange}, a ∈ rs → b ∈ rs → start a = start b → ¬ a.high + 1 < b.low := by
    intro a b ha hb heq hlt
    have hle := a.low_le_high
    have hla := hlow a ha
    have hhb := hhigh b hb
    rw [← heq] at hhb
    exact hrs.not_covers_succ_high ha ((h _).1 ⟨start a, hmem a ha, by omega, by omega⟩)
  have hinj : ∀ a ∈ rs, ∀ b ∈ rs, start a = start b → a = b := by
    intro a ha b hb heq
    refine Classical.byContradiction fun hne => ?_
    rcases apart_of_ne hrs ha hb hne with hlt | hlt
    · exact hgap ha hb heq hlt
    · exact hgap hb ha heq.symm hlt
  have hnodup : rs.Nodup := by
    refine hrs.imp fun {a b} hlt => ?_
    rintro rfl
    have := a.low_le_high
    omega
  have hsubset : rs.map start ⊆ ss := fun s hs => by
    obtain ⟨r, hr, rfl⟩ := List.mem_map.1 hs
    exact hmem r hr
  calc rs.length = (rs.map start).length := (List.length_map ..).symm
    _ ≤ ss.length := ((hnodup.map_on hinj).subperm hsubset).length_le

theorem le_maxId_of_covers (h : Covers rs id) : id ≤ maxId := by
  obtain ⟨r, -, -, hhigh⟩ := h
  exact Nat.le_trans hhigh r.high_le_maxId

/-- Whether ranges cover the same is up to the numbers that there are. -/
theorem covers_congr (h : ∀ id ≤ maxId, Covers rs id ↔ Covers ss id) (id : Nat) :
    Covers rs id ↔ Covers ss id :=
  ⟨fun hid => (h id (le_maxId_of_covers hid)).1 hid,
    fun hid => (h id (le_maxId_of_covers hid)).2 hid⟩

theorem compact_eq_iff : compact rs = compact ss ↔ ∀ id ≤ maxId, Covers rs id ↔ Covers ss id := by
  constructor
  · intro h id _
    rw [← covers_compact, h, covers_compact]
  · intro h
    refine eq_of_covers (compact_apart rs) (compact_apart ss) fun id => ?_
    rw [covers_compact, covers_compact, covers_congr h]

/-! ### Ranges of 32-bit words -/

/-- The largest 32-bit word has no successor and stays. -/
def nextWord (n : UInt32) : UInt32 := if n = 0xffffffff then n else n + 1

/-- The bounds of a range as 32-bit words. -/
def words (r : IdRange) : UInt32 × UInt32 := (UInt32.ofNat r.low, UInt32.ofNat r.high)

/-- The sweep over the bounds of sorted ranges in 32-bit arithmetic. -/
def sweepWords (last : UInt32 × UInt32) : List (UInt32 × UInt32) → List (UInt32 × UInt32)
  | [] => [last]
  | next :: rest =>
    if next.1 ≤ nextWord last.2 then sweepWords (last.1, max last.2 next.2) rest
    else last :: sweepWords next rest

/-- The bounds of compact ranges, from the bounds of sorted ones. -/
def compactWords : List (UInt32 × UInt32) → List (UInt32 × UInt32)
  | [] => []
  | first :: rest => sweepWords first rest

theorem toNat_nextWord (n : UInt32) : (nextWord n).toNat = min (n.toNat + 1) maxId := by
  have hlt : n.toNat < 4294967296 := n.toNat_lt
  rw [nextWord, maxId]
  split
  · rename_i h
    rw [h]
    rfl
  · rename_i h
    have hne : n.toNat ≠ 4294967295 := fun heq => h (UInt32.toNat_inj.1 heq)
    rw [UInt32.toNat_add, UInt32.toNat_one]
    omega

theorem toNat_max (m n : UInt32) : (max m n).toNat = max m.toNat n.toNat := by
  rw [show max m n = if m ≤ n then n else m from rfl, Nat.max_def]
  simp only [UInt32.le_iff_toNat_le]
  split <;> rfl

theorem toNat_words_fst (r : IdRange) : r.words.1.toNat = r.low :=
  UInt32.toNat_ofNat_of_lt' (Nat.lt_succ_of_le (Nat.le_trans r.low_le_high r.high_le_maxId))

theorem toNat_words_snd (r : IdRange) : r.words.2.toNat = r.high :=
  UInt32.toNat_ofNat_of_lt' (Nat.lt_succ_of_le r.high_le_maxId)

theorem words_injective : Function.Injective words := fun a b h => by
  refine IdRange.ext ?_ ?_
  · rw [← toNat_words_fst, h, toNat_words_fst]
  · rw [← toNat_words_snd, h, toNat_words_snd]

theorem touches_words (r next : IdRange) :
    r.touches next = decide (next.words.1 ≤ nextWord r.words.2) := by
  simp only [touches, UInt32.le_iff_toNat_le, toNat_nextWord, toNat_words_fst, toNat_words_snd]

theorem words_extend (r next : IdRange) :
    (r.extend next).words = (r.words.1, max r.words.2 next.words.2) := by
  refine Prod.ext rfl (UInt32.toNat_inj.1 ?_)
  rw [toNat_max, toNat_words_snd, toNat_words_snd, toNat_words_snd, high_extend]

theorem sweep_words (last : IdRange) (rs : List IdRange) :
    (sweep touches last rs).map words = sweepWords last.words (rs.map words) := by
  induction rs generalizing last with
  | nil => rfl
  | cons next rest ih =>
    rw [sweep, List.map_cons, sweepWords, ← words_extend]
    simp only [touches_words, decide_eq_true_eq]
    split
    · exact ih _
    · rw [List.map_cons, ih]

theorem compact_words (rs : List IdRange) :
    (compact rs).map words = compactWords ((sorted rs).map words) := by
  rw [compact, collapse]
  split
  · rename_i h
    rw [h]
    rfl
  · rename_i h
    rw [h]
    exact sweep_words _ _

/-! ### The canonical form -/

theorem compact_merge : compact (merge rs) = compact rs :=
  compact_eq_iff.2 fun _ _ => covers_merge

end IdRange

namespace SequenceSet

theorem contains_iff_covers {s : SequenceSet} {id : Nat} :
    s.contains id = true ↔ IdRange.Covers s.ranges id := contains_iff

theorem compacted_eq_iff {s t : SequenceSet} :
    s.compacted = t.compacted ↔ ∀ id ≤ maxId, s.contains id = t.contains id := by
  have hcontains : ∀ id, s.contains id = t.contains id ↔
      (IdRange.Covers s.ranges id ↔ IdRange.Covers t.ranges id) := fun id => by
    rw [Bool.eq_iff_iff, contains_iff_covers, contains_iff_covers]
  simp only [hcontains, ← IdRange.compact_eq_iff]
  exact ⟨fun h => congrArg ranges h, fun h => ext h⟩

end SequenceSet

/-- Compact ranges are a canonical form: they depend on nothing but the numbers, have exactly these,
with a gap behind each, and are the fewest ranges that have them.  Merging first makes no
difference, and sets have the same canonical form exactly when they have the same members.  In
32-bit words the sweep gives the same, so no step leaves them. -/
theorem IdRange.compact_canonical :
    (∀ rs ss, compact rs = compact ss ↔ ∀ id ≤ maxId, Covers rs id ↔ Covers ss id) ∧
    (∀ rs id, Covers (compact rs) id ↔ Covers rs id) ∧
    (∀ rs, (compact rs).Pairwise fun a b => a.high + 1 < b.low) ∧
    (∀ rs ss, (∀ id ≤ maxId, Covers ss id ↔ Covers rs id) → (compact rs).length ≤ ss.length) ∧
    (∀ rs, compact (merge rs) = compact rs) ∧
    (∀ s t : SequenceSet, s.compacted = t.compacted ↔ ∀ id ≤ maxId, s.contains id = t.contains id) ∧
    Function.Injective words ∧
    ∀ rs, (compact rs).map words = compactWords ((sorted rs).map words) := by
  refine ⟨fun _ _ => compact_eq_iff, fun _ _ => covers_compact, compact_apart, fun rs ss h => ?_,
    fun _ => compact_merge, fun _ _ => SequenceSet.compacted_eq_iff, words_injective, compact_words⟩
  refine length_le_of_covers (compact_apart rs) fun id => ?_
  rw [covers_congr h, covers_compact]

/-- The ranges `6:8,*,4294967294,5` and `4294967294:*,5,6:8,7` have the same numbers, and the range
up to `*` is joined with the one that ends right below it. -/
theorem IdRange.compact_canonical_unbounded :
    let low : IdRange := ⟨5, 5, by decide, by decide, by decide⟩
    let mid : IdRange := ⟨6, 8, by decide, by decide, by decide⟩
    let inner : IdRange := ⟨7, 7, by decide, by decide, by decide⟩
    let below : IdRange := ⟨4294967294, 4294967294, by decide, by decide, by decide⟩
    let top : IdRange := ⟨maxId, maxId, by decide, by decide, by decide⟩
    let both : IdRange := ⟨4294967294, maxId, by decide, by decide, by decide⟩
    (∀ id ≤ maxId, Covers [mid, top, below, low] id ↔ Covers [both, low, mid, inner] id) ∧
      (compact [mid, top, below, low]).length ≤ [both, low, mid, inner].length ∧
      compact [mid, top, below, low] = [⟨5, 8, by decide, by decide, by decide⟩, both] := by
  intro low mid inner below top both
  obtain ⟨hiff, -, -, hfewest, -⟩ := compact_canonical
  have hsame : ∀ id ≤ maxId, Covers [mid, top, below, low] id ↔ Covers [both, low, mid, inner] id :=
    (hiff _ _).1 (by decide)
  exact ⟨hsame, hfewest _ _ fun id hid => (hsame id hid).symm, by decide⟩

end ImapRequest

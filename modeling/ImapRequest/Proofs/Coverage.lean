import ImapRequest.Sequence.Set
import Mathlib.Data.List.Pairwise
import Mathlib.Data.List.Sort

/-!
# What ranges cover

Sorting ranges and joining neighbours keeps the numbers that they have, as long as nothing is joined
over a gap.  Where only ranges with a common number are joined, it also keeps which neighbouring
numbers lie in one range.  Ranges that share no number are determined by these two facts.

* `IdRange.Covers`, `IdRange.Bridges` : some range has a number; some range has it and the next one;
* `IdRange.exists_mem_sweep` : what one sweep over sorted ranges keeps, by induction on them;
* `IdRange.covers_merge`, `IdRange.bridges_merge`, `IdRange.covers_compact` : the same of merging;
* `SequenceSet.contains_of_ofRanges` : a set has the numbers of its ranges;
* `IdRange.Separated.eq_of_covers_of_bridges` : when sorted ranges are the same.
-/

namespace ImapRequest

namespace IdRange

/-- Some range has the number. -/
def Covers (rs : List IdRange) (id : Nat) : Prop := ∃ r ∈ rs, r.low ≤ id ∧ id ≤ r.high

/-- Some range has the number and the next one. -/
def Bridges (rs : List IdRange) (id : Nat) : Prop := ∃ r ∈ rs, r.low ≤ id ∧ id < r.high

variable {rs ss : List IdRange} {r last : IdRange} {id : Nat} {joins : IdRange → IdRange → Bool}
  {P : IdRange → Prop}

@[simp] theorem not_covers_nil : ¬ Covers [] id := by simp [Covers]

@[simp] theorem covers_cons : Covers (r :: rs) id ↔ (r.low ≤ id ∧ id ≤ r.high) ∨ Covers rs id := by
  simp [Covers]

/-! ### Merging keeps what ranges cover -/

/-- Whether some range has a property is kept if a joined range has it exactly when one of the two
has. -/
theorem exists_mem_sweep
    (hP : ∀ a b : IdRange, joins a b = true → a.low ≤ b.low → (P (a.extend b) ↔ P a ∨ P b))
    (hrs : SortedByLow (last :: rs)) :
    (∃ r ∈ sweep joins last rs, P r) ↔ ∃ r ∈ last :: rs, P r := by
  induction rs generalizing last with
  | nil => rfl
  | cons next rest ih =>
    obtain ⟨hlast, hrest⟩ := List.pairwise_cons.1 hrs
    unfold sweep
    split
    · rename_i hj
      have hlow : last.low ≤ next.low := hlast next (List.mem_cons_self ..)
      have hsorted : SortedByLow (last.extend next :: rest) :=
        List.pairwise_cons.2
          ⟨fun x hx => hlast x (List.mem_cons_of_mem _ hx), (List.pairwise_cons.1 hrest).2⟩
      rw [ih hsorted, List.exists_mem_cons_iff, List.exists_mem_cons_iff, List.exists_mem_cons_iff,
        hP last next hj hlow, or_assoc]
    · rw [List.exists_mem_cons_iff, ih hrest, ← List.exists_mem_cons_iff]

theorem exists_mem_collapse
    (hP : ∀ a b : IdRange, joins a b = true → a.low ≤ b.low → (P (a.extend b) ↔ P a ∨ P b)) :
    (∃ r ∈ collapse joins rs, P r) ↔ ∃ r ∈ rs, P r := by
  have hsorted := sortedByLow_sorted rs
  have hmem : (∃ r ∈ rs, P r) ↔ ∃ r ∈ sorted rs, P r := by simp only [(sorted_perm rs).mem_iff]
  rw [hmem]
  unfold collapse
  split
  · rename_i h
    rw [h]
  · rename_i h
    rw [h] at hsorted ⊢
    exact exists_mem_sweep hP hsorted

/-- No gap is lost where a range is joined that starts below the end of the other or right behind
it. -/
theorem covers_collapse (hjoins : ∀ a b : IdRange, joins a b = true → b.low ≤ a.high + 1) :
    Covers (collapse joins rs) id ↔ Covers rs id := by
  refine exists_mem_collapse fun a b hj hlow => ?_
  have hnear : b.low ≤ a.high + 1 := hjoins a b hj
  rw [low_extend, high_extend]
  omega

theorem covers_merge : Covers (merge rs) id ↔ Covers rs id :=
  covers_collapse fun _ _ h => Nat.le_succ_of_le (overlaps_iff.1 h)

theorem covers_compact : Covers (compact rs) id ↔ Covers rs id :=
  covers_collapse fun _ _ h => touches_iff.1 h

/-- Neighbouring numbers come into one range only where they were in one before. -/
theorem bridges_merge : Bridges (merge rs) id ↔ Bridges rs id := by
  refine exists_mem_collapse fun a b hj hlow => ?_
  have hshared : b.low ≤ a.high := overlaps_iff.1 hj
  rw [low_extend, high_extend]
  omega

/-! ### Ranges that share no number -/

/-- Of two ranges one ends more than `gap` numbers before the other starts, if each does before the
next ones. -/
theorem apart_of_ne {gap : Nat} (h : rs.Pairwise fun a b => a.high + gap < b.low) {a b : IdRange}
    (ha : a ∈ rs) (hb : b ∈ rs) (hne : a ≠ b) : a.high + gap < b.low ∨ b.high + gap < a.low := by
  have hsymm : Std.Symm fun a b : IdRange => a.high + gap < b.low ∨ b.high + gap < a.low :=
    ⟨fun _ _ => Or.symm⟩
  have hpairwise : rs.Pairwise fun a b => a.high + gap < b.low ∨ b.high + gap < a.low :=
    h.imp Or.inl
  exact hpairwise.forall ha hb hne

namespace Separated

/-- A number lies in one range only. -/
theorem eq_of_mem (h : Separated rs) {a b : IdRange} (ha : a ∈ rs) (hb : b ∈ rs)
    (hid : a.low ≤ id ∧ id ≤ a.high) (hid' : b.low ≤ id ∧ id ≤ b.high) : a = b := by
  refine Classical.byContradiction fun hne => ?_
  have hapart := @apart_of_ne _ 0 h _ _ ha hb hne
  omega

/-- Neighbouring numbers are not in one range where it ends. -/
theorem not_bridges_high (h : Separated rs) {a : IdRange} (ha : a ∈ rs) : ¬ Bridges rs a.high := by
  rintro ⟨b, hb, hlow, hhigh⟩
  obtain rfl : a = b := h.eq_of_mem ha hb ⟨a.low_le_high, Nat.le_refl _⟩ ⟨hlow, Nat.le_of_lt hhigh⟩
  exact Nat.lt_irrefl _ hhigh

/-- A range whose first number is covered, and whose neighbouring numbers are bridged, lies in one
of the ranges. -/
theorem exists_of_bridges (h : Separated rs) {a : IdRange} (hcovers : Covers rs a.low)
    (hbridges : ∀ id, a.low ≤ id → id < a.high → Bridges rs id) :
    ∃ m ∈ rs, m.low ≤ a.low ∧ a.high ≤ m.high := by
  obtain ⟨m, hm, hlow, hhigh⟩ := hcovers
  refine ⟨m, hm, hlow, Nat.not_lt.1 fun hlt => ?_⟩
  exact h.not_bridges_high hm (hbridges m.high hhigh hlt)

theorem eq_of_mem_iff (hrs : Separated rs) (hss : Separated ss) (h : ∀ r, r ∈ rs ↔ r ∈ ss) :
    rs = ss := by
  have hirrefl : Std.Irrefl fun a b : IdRange => a.high < b.low :=
    ⟨fun a hlt => Nat.not_le.2 hlt a.low_le_high⟩
  have hantisymm : Std.Antisymm fun a b : IdRange => a.high < b.low := by
    refine ⟨fun a b hab hba => ?_⟩
    have := a.low_le_high
    have := b.low_le_high
    omega
  exact List.Pairwise.eq_of_mem_iff hrs hss h

/-- Ranges that have the same numbers, and the same neighbouring numbers in one range, are the
same. -/
theorem eq_of_covers_of_bridges (hrs : Separated rs) (hss : Separated ss)
    (hcovers : ∀ id, Covers rs id ↔ Covers ss id) (hbridges : ∀ id, Bridges rs id ↔ Bridges ss id) :
    rs = ss := by
  -- Each range lies in one of the other list, which lies in one of the first, so all three are
  -- equal.
  have hwithin : ∀ {rs ss : List IdRange}, Separated ss → (∀ id, Covers rs id → Covers ss id) →
      (∀ id, Bridges rs id → Bridges ss id) → ∀ a ∈ rs, ∃ m ∈ ss, m.low ≤ a.low ∧ a.high ≤ m.high :=
    fun hss hcovers hbridges a ha => hss.exists_of_bridges
      (hcovers _ ⟨a, ha, Nat.le_refl _, a.low_le_high⟩)
      fun id hlow hhigh => hbridges _ ⟨a, ha, hlow, hhigh⟩
  have hsubset : ∀ {rs ss : List IdRange}, Separated rs → Separated ss →
      (∀ id, Covers rs id ↔ Covers ss id) → (∀ id, Bridges rs id ↔ Bridges ss id) →
      ∀ a ∈ rs, a ∈ ss := by
    intro rs ss hrs hss hcovers hbridges a ha
    obtain ⟨m, hm, hlow, hhigh⟩ :=
      hwithin hss (fun id => (hcovers id).1) (fun id => (hbridges id).1) a ha
    obtain ⟨a', ha', hlow', hhigh'⟩ :=
      hwithin hrs (fun id => (hcovers id).2) (fun id => (hbridges id).2) m hm
    have hle := a.low_le_high
    obtain rfl : a = a' := hrs.eq_of_mem ha ha' ⟨Nat.le_refl _, hle⟩ ⟨by omega, by omega⟩
    obtain rfl : a = m := IdRange.ext (by omega) (by omega)
    exact hm
  exact hrs.eq_of_mem_iff hss fun r => ⟨hsubset hrs hss hcovers hbridges r,
    hsubset hss hrs (fun id => (hcovers id).symm) (fun id => (hbridges id).symm) r⟩

end Separated

/-- Merging changes nothing that is merged. -/
theorem merge_of_separated (h : Separated rs) : merge rs = rs :=
  (merge_separated rs).eq_of_covers_of_bridges h (fun _ => covers_merge) fun _ => bridges_merge

end IdRange

/-- A set has exactly the numbers of the ranges that it is made of. -/
theorem SequenceSet.contains_of_ofRanges {rs : List IdRange} {s : SequenceSet}
    (h : ofRanges rs = .ok s) {id : Nat} : s.contains id = true ↔ IdRange.Covers rs id := by
  rw [ofRanges] at h
  split at h
  · simp at h
  · obtain rfl := Except.ok.inj h
    exact contains_iff.trans IdRange.covers_merge

end ImapRequest

import ImapRequest.Sequence.Sorted

/-!
# Merging ranges

Ranges are merged in one sweep over their sorted list: a range that joins the last range of the
result extends it, any other range starts a new one.

* `IdRange.merge` : ranges that share a number become one;
* `IdRange.compact` : ranges without a gap between them become one as well.

Both give ranges that are sorted and share no number (`merge_separated`, `compact_separated`), and
between compact ranges there are gaps (`compact_apart`).
-/

namespace ImapRequest

namespace IdRange

/-- Each range ends before the next one starts. -/
def Separated (rs : List IdRange) : Prop := rs.Pairwise fun a b => a.high < b.low

instance (rs : List IdRange) : Decidable (Separated rs) :=
  inferInstanceAs (Decidable (List.Pairwise _ rs))

/-- The sweep over sorted ranges, where `last` is the last range of the result so far. -/
def sweep (joins : IdRange → IdRange → Bool) (last : IdRange) : List IdRange → List IdRange
  | [] => [last]
  | next :: rest =>
    if joins last next then sweep joins (last.extend next) rest
    else last :: sweep joins next rest

/-- Sorts ranges and joins neighbours. -/
def collapse (joins : IdRange → IdRange → Bool) (rs : List IdRange) : List IdRange :=
  match sorted rs with
  | [] => []
  | first :: rest => sweep joins first rest

/-- Ranges that share a number become one. -/
def merge (rs : List IdRange) : List IdRange := collapse overlaps rs

/-- Ranges that share a number, or follow each other without a gap, become one. -/
def compact (rs : List IdRange) : List IdRange := collapse touches rs

/-! ### The result is sorted and without common numbers -/

section Sweep

variable {joins : IdRange → IdRange → Bool}

theorem sweep_ne_nil (last : IdRange) (rs : List IdRange) : sweep joins last rs ≠ [] := by
  induction rs generalizing last with
  | nil => simp [sweep]
  | cons next rest ih =>
    unfold sweep
    split
    · exact ih _
    · simp

/-- Ranges sorted by their smallest numbers. -/
abbrev SortedByLow (rs : List IdRange) : Prop := rs.Pairwise fun a b => a.low ≤ b.low

/-- No range of the result starts before the sweep did. -/
theorem low_le_of_mem_sweep {last r : IdRange} {rs : List IdRange}
    (hrs : SortedByLow (last :: rs)) (hr : r ∈ sweep joins last rs) : last.low ≤ r.low := by
  induction rs generalizing last with
  | nil => simp_all [sweep]
  | cons next rest ih =>
    obtain ⟨hlast, hrest⟩ := List.pairwise_cons.1 hrs
    unfold sweep at hr
    split at hr
    · have hsorted : SortedByLow (last.extend next :: rest) :=
        List.pairwise_cons.2
          ⟨fun x hx => hlast x (by simp [hx]), (List.pairwise_cons.1 hrest).2⟩
      exact (ih hsorted hr : (last.extend next).low ≤ r.low)
    · rcases List.mem_cons.1 hr with rfl | hr
      · exact Nat.le_refl _
      · exact Nat.le_trans (hlast next (by simp)) (ih hrest hr)

/-- Ranges that are not joined are more than `gap` numbers apart, and so is the whole result. -/
theorem sweep_apart (gap : Nat) (hjoins : ∀ a b : IdRange, joins a b = false → a.high + gap < b.low)
    {last : IdRange} {rs : List IdRange} (hrs : SortedByLow (last :: rs)) :
    (sweep joins last rs).Pairwise fun a b => a.high + gap < b.low := by
  induction rs generalizing last with
  | nil => simp [sweep]
  | cons next rest ih =>
    obtain ⟨hlast, hrest⟩ := List.pairwise_cons.1 hrs
    unfold sweep
    split
    · refine ih (List.pairwise_cons.2 ⟨fun x hx => ?_, (List.pairwise_cons.1 hrest).2⟩)
      exact hlast x (by simp [hx])
    · rename_i hj
      refine List.pairwise_cons.2 ⟨fun x hx => ?_, ih hrest⟩
      exact Nat.lt_of_lt_of_le (hjoins _ _ (by simpa using hj)) (low_le_of_mem_sweep hrest hx)

end Sweep

theorem sortedByLow_sorted (rs : List IdRange) : SortedByLow (sorted rs) :=
  (sorted_pairwise rs).imp low_le_of_precedes

theorem collapse_apart (gap : Nat) {joins : IdRange → IdRange → Bool}
    (hjoins : ∀ a b : IdRange, joins a b = false → a.high + gap < b.low) (rs : List IdRange) :
    (collapse joins rs).Pairwise fun a b => a.high + gap < b.low := by
  have hsorted := sortedByLow_sorted rs
  unfold collapse
  split
  · exact List.Pairwise.nil
  · rename_i h
    exact sweep_apart gap hjoins (h ▸ hsorted)

theorem collapse_ne_nil {joins : IdRange → IdRange → Bool} {rs : List IdRange} (h : rs ≠ []) :
    collapse joins rs ≠ [] := by
  unfold collapse
  split
  · rename_i hs
    exact absurd (sorted_eq_nil.1 hs) h
  · exact sweep_ne_nil _ _

theorem merge_separated (rs : List IdRange) : Separated (merge rs) :=
  collapse_apart 0 (fun a b h => by simpa [overlaps] using h) rs

/-- Behind every range but the last there is a number in no range. -/
theorem compact_apart (rs : List IdRange) : (compact rs).Pairwise fun a b => a.high + 1 < b.low :=
  collapse_apart 1 (fun a b h => by
    have : ¬ a.touches b = true := by simp [h]
    rw [touches_iff] at this
    omega) rs

theorem compact_separated (rs : List IdRange) : Separated (compact rs) :=
  (compact_apart rs).imp Nat.lt_of_succ_lt

theorem merge_ne_nil {rs : List IdRange} (h : rs ≠ []) : merge rs ≠ [] := collapse_ne_nil h

theorem compact_ne_nil {rs : List IdRange} (h : rs ≠ []) : compact rs ≠ [] := collapse_ne_nil h

end IdRange

end ImapRequest

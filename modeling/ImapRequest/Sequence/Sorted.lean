import ImapRequest.Sequence.Range

/-!
# Ranges in ascending order

Ranges are ordered by `IdRange.precedes`.  `IdRange.sorted` inserts them one by one from the last to
the first, which is one comparison each where they are in ascending order already, as they mostly
are in requests.  The recursion is structural, so closed terms can be evaluated by the kernel.

* `IdRange.sorted_perm` : sorting loses and adds nothing;
* `IdRange.sorted_pairwise` : every range precedes those after it.
-/

namespace ImapRequest

namespace IdRange

/-- Puts a range in front of the first one that it precedes. -/
def insertInOrder (r : IdRange) : List IdRange → List IdRange
  | [] => [r]
  | next :: rest => if r.precedes next then r :: next :: rest else next :: insertInOrder r rest

/-- The ranges in ascending order. -/
def sorted (rs : List IdRange) : List IdRange := rs.foldr insertInOrder []

theorem insertInOrder_perm (r : IdRange) (rs : List IdRange) :
    (insertInOrder r rs).Perm (r :: rs) := by
  induction rs with
  | nil => exact List.Perm.refl _
  | cons next rest ih =>
    unfold insertInOrder
    split
    · exact List.Perm.refl _
    · exact (ih.cons next).trans (List.Perm.swap r next rest)

theorem sorted_perm (rs : List IdRange) : (sorted rs).Perm rs := by
  induction rs with
  | nil => exact List.Perm.refl _
  | cons r rs ih => exact (insertInOrder_perm r _).trans (ih.cons r)

theorem insertInOrder_pairwise (r : IdRange) {rs : List IdRange}
    (h : rs.Pairwise fun a b => a.precedes b = true) :
    (insertInOrder r rs).Pairwise fun a b => a.precedes b = true := by
  induction rs with
  | nil => simp [insertInOrder]
  | cons next rest ih =>
    obtain ⟨hnext, hrest⟩ := List.pairwise_cons.1 h
    unfold insertInOrder
    split
    · rename_i hr
      refine List.pairwise_cons.2 ⟨fun x hx => ?_, h⟩
      rcases List.mem_cons.1 hx with rfl | hx
      · exact hr
      · exact precedes_trans hr (hnext x hx)
    · rename_i hr
      refine List.pairwise_cons.2 ⟨fun x hx => ?_, ih hrest⟩
      rcases List.mem_cons.1 ((insertInOrder_perm r rest).mem_iff.1 hx) with rfl | hx
      · have := precedes_total x next
        simp_all
      · exact hnext x hx

theorem sorted_pairwise (rs : List IdRange) :
    (sorted rs).Pairwise fun a b => a.precedes b = true := by
  induction rs with
  | nil => exact List.Pairwise.nil
  | cons r rs ih => exact insertInOrder_pairwise r ih

@[simp] theorem sorted_eq_nil {rs : List IdRange} : sorted rs = [] ↔ rs = [] :=
  ⟨fun h => by simpa [h] using (sorted_perm rs).length_eq.symm, fun h => by rw [h]; rfl⟩

end IdRange

end ImapRequest

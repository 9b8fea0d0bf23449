import ImapRequest.Proofs.Coverage
import Mathlib.Order.Bounds.Basic

/-!
# Ranges that hang together

Two ranges hang together when a chain of ranges leads from one to the other, neighbours of which
share a number.  Merging compares each range with the last one of the result only, and still joins
exactly the ranges that hang together: a range of the result has all neighbouring numbers in common
with some range before, so a chain can climb from its first number to its last.

* `IdRange.Linked` : a chain of ranges leads from one to another;
* `IdRange.Spans` : a range reaches from the smallest to the largest number of what hangs together;
* `IdRange.linked_of_within`, `IdRange.Linked.within` : what is joined hangs together, and
  conversely;
* `IdRange.mem_merge_iff` : the ranges of the result;
* `IdRange.merge_components` : all that merging does.
-/

namespace ImapRequest

namespace IdRange

/-- Two ranges have a number in common. -/
def Share (a b : IdRange) : Prop := ∃ id, a.contains id = true ∧ b.contains id = true

/-- A chain of ranges of the list leads from `a` to another, neighbours of which share a number. -/
inductive Linked (rs : List IdRange) (a : IdRange) : IdRange → Prop
  | refl (ha : a ∈ rs) : Linked rs a a
  | step {b c : IdRange} (h : Linked rs a b) (hc : c ∈ rs) (hshare : Share b c) : Linked rs a c

/-- All numbers of a range are in another. -/
def Within (a m : IdRange) : Prop := m.low ≤ a.low ∧ a.high ≤ m.high

instance (a m : IdRange) : Decidable (Within a m) := inferInstanceAs (Decidable (_ ∧ _))

/-- A range reaches from the smallest to the largest number of all ranges that `r` is linked
with. -/
structure Spans (rs : List IdRange) (r m : IdRange) : Prop where
  isLeast_low : IsLeast (low '' {x | Linked rs r x}) m.low
  isGreatest_high : IsGreatest (high '' {x | Linked rs r x}) m.high

variable {rs : List IdRange} {a b c m r : IdRange} {n : Nat}

theorem Share.symm (h : Share a b) : Share b a := by
  obtain ⟨id, ha, hb⟩ := h
  exact ⟨id, hb, ha⟩

theorem share_of_mem (ha : a.low ≤ n ∧ n ≤ a.high) (hb : b.low ≤ n ∧ n ≤ b.high) : Share a b :=
  ⟨n, contains_iff.2 ha, contains_iff.2 hb⟩

/-! ### Chains -/

namespace Linked

theorem mem (h : Linked rs a b) : b ∈ rs := by
  cases h with
  | refl ha => exact ha
  | step _ hc _ => exact hc

theorem trans (hab : Linked rs a b) (hbc : Linked rs b c) : Linked rs a c := by
  induction hbc with
  | refl _ => exact hab
  | step _ hc hshare ih => exact ih.step hc hshare

theorem symm (h : Linked rs a b) : Linked rs b a := by
  induction h with
  | refl ha => exact .refl ha
  | step h hc hshare ih => exact ((refl hc).step h.mem hshare.symm).trans ih

end Linked

/-- A chain climbs to a number as long as neighbouring numbers are in one range.  By induction on
the number. -/
theorem exists_linked_of_bridges (ha : a ∈ rs) (hn : a.low ≤ n)
    (hbridges : ∀ id, a.low ≤ id → id < n → Bridges rs id) :
    ∃ x, Linked rs a x ∧ x.low ≤ n ∧ n ≤ x.high := by
  induction n, hn using Nat.le_induction with
  | base => exact ⟨a, .refl ha, Nat.le_refl _, a.low_le_high⟩
  | succ n hn ih =>
    obtain ⟨x, hx, hxn⟩ := ih fun id hlow hlt => hbridges id hlow (Nat.lt_succ_of_lt hlt)
    obtain ⟨next, hnext, hlow, hhigh⟩ := hbridges n hn (Nat.lt_succ_self n)
    have hshare : Share x next := share_of_mem hxn ⟨hlow, Nat.le_of_lt hhigh⟩
    exact ⟨next, hx.step hnext hshare, Nat.le_succ_of_le hlow, hhigh⟩

theorem linked_of_bridges (ha : a ∈ rs) (hb : b ∈ rs) (hle : a.low ≤ b.low)
    (hbridges : ∀ id, a.low ≤ id → id < b.low → Bridges rs id) : Linked rs a b := by
  obtain ⟨x, hx, hxb⟩ := exists_linked_of_bridges ha hle hbridges
  exact hx.step hb (share_of_mem hxb ⟨Nat.le_refl _, b.low_le_high⟩)

/-! ### Merged ranges -/

/-- Every range comes to lie in one of the result. -/
theorem exists_within (ha : a ∈ rs) : ∃ m ∈ merge rs, a.Within m :=
  (merge_separated rs).exists_of_bridges (covers_merge.2 ⟨a, ha, Nat.le_refl _, a.low_le_high⟩)
    fun _ hlow hhigh => bridges_merge.2 ⟨a, ha, hlow, hhigh⟩

theorem eq_of_mem_merge {m' : IdRange} (hm : m ∈ merge rs) (hm' : m' ∈ merge rs)
    (ha : a.Within m) (hb : b.Within m') (hshare : Share a b) : m = m' := by
  obtain ⟨id, hida, hidb⟩ := hshare
  rw [contains_iff] at hida hidb
  have him : m.low ≤ id ∧ id ≤ m.high := ⟨Nat.le_trans ha.1 hida.1, Nat.le_trans hida.2 ha.2⟩
  have him' : m'.low ≤ id ∧ id ≤ m'.high := ⟨Nat.le_trans hb.1 hidb.1, Nat.le_trans hidb.2 hb.2⟩
  exact (merge_separated rs).eq_of_mem hm hm' him him'

theorem share_self (a : IdRange) : Share a a :=
  share_of_mem ⟨Nat.le_refl _, a.low_le_high⟩ ⟨Nat.le_refl _, a.low_le_high⟩

/-- What hangs together is joined. -/
theorem Linked.within (h : Linked rs a b) (hm : m ∈ merge rs) (ha : a.Within m) : b.Within m := by
  induction h with
  | refl _ => exact ha
  | step _ hc hshare ih =>
    obtain ⟨m', hm', hcm⟩ := exists_within hc
    obtain rfl := eq_of_mem_merge hm hm' ih hcm hshare
    exact hcm

/-- What is joined hangs together. -/
theorem linked_of_within (hm : m ∈ merge rs) (ha : a ∈ rs) (hb : b ∈ rs) (ham : a.Within m)
    (hbm : b.Within m) : Linked rs a b := by
  have hbridges : ∀ id, m.low ≤ id → id < m.high → Bridges rs id :=
    fun id hlow hhigh => bridges_merge.1 ⟨m, hm, hlow, hhigh⟩
  have hup : ∀ {x y : IdRange}, x ∈ rs → y ∈ rs → x.Within m → y.Within m → x.low ≤ y.low →
      Linked rs x y := by
    intro x y hx hy hxm hym hle
    refine linked_of_bridges hx hy hle fun id hlow hlt => hbridges id ?_ ?_
    · exact Nat.le_trans hxm.1 hlow
    · exact Nat.lt_of_lt_of_le hlt (Nat.le_trans y.low_le_high hym.2)
  rcases Nat.le_total a.low b.low with hle | hle
  · exact hup ha hb ham hbm hle
  · exact (hup hb ha hbm ham hle).symm

/-- A number of a merged range is in one of the ranges that lie in it. -/
theorem exists_within_of_mem (hm : m ∈ merge rs) (hn : m.low ≤ n ∧ n ≤ m.high) :
    ∃ x ∈ rs, x.Within m ∧ x.low ≤ n ∧ n ≤ x.high := by
  obtain ⟨x, hx, hxn⟩ := covers_merge.1 ⟨m, hm, hn⟩
  obtain ⟨m', hm', hxm⟩ := exists_within hx
  obtain rfl := eq_of_mem_merge (a := m) hm hm' ⟨Nat.le_refl _, Nat.le_refl _⟩ hxm
    (share_of_mem hn hxn)
  exact ⟨x, hx, hxm, hxn⟩

theorem spans_of_within (hm : m ∈ merge rs) (hr : r ∈ rs) (hrm : r.Within m) : Spans rs r m where
  isLeast_low := by
    obtain ⟨x, hx, hxm, hxn⟩ := exists_within_of_mem hm ⟨Nat.le_refl _, m.low_le_high⟩
    refine ⟨⟨x, linked_of_within hm hr hx hrm hxm, Nat.le_antisymm hxn.1 hxm.1⟩, ?_⟩
    rintro _ ⟨y, hy, rfl⟩
    exact (hy.within hm hrm).1
  isGreatest_high := by
    obtain ⟨x, hx, hxm, hxn⟩ := exists_within_of_mem hm ⟨m.low_le_high, Nat.le_refl _⟩
    refine ⟨⟨x, linked_of_within hm hr hx hrm hxm, Nat.le_antisymm hxm.2 hxn.2⟩, ?_⟩
    rintro _ ⟨y, hy, rfl⟩
    exact (hy.within hm hrm).2

/-- The ranges of the result are those that reach over all that hangs together with some range. -/
theorem mem_merge_iff : m ∈ merge rs ↔ ∃ r ∈ rs, Spans rs r m := by
  constructor
  · intro hm
    obtain ⟨r, hr, hrm, -⟩ := exists_within_of_mem hm ⟨Nat.le_refl _, m.low_le_high⟩
    exact ⟨r, hr, spans_of_within hm hr hrm⟩
  · rintro ⟨r, hr, hspans⟩
    obtain ⟨m', hm', hrm⟩ := exists_within hr
    have hspans' := spans_of_within hm' hr hrm
    have hlow : m.low = m'.low := hspans.isLeast_low.unique hspans'.isLeast_low
    have hhigh : m.high = m'.high := hspans.isGreatest_high.unique hspans'.isGreatest_high
    obtain rfl : m = m' := IdRange.ext hlow hhigh
    exact hm'

/-- Only which ranges there are matters. -/
theorem merge_congr {ss : List IdRange} (h : ∀ r, r ∈ ss ↔ r ∈ rs) : merge ss = merge rs := by
  refine (merge_separated ss).eq_of_covers_of_bridges (merge_separated rs) (fun id => ?_)
    fun id => ?_
  · rw [covers_merge, covers_merge]
    simp only [Covers, h]
  · rw [bridges_merge, bridges_merge]
    simp only [Bridges, h]

/-- Merging joins the ranges that hang together, each such family to the range from its smallest to
its largest number.  What is covered stays covered; a number and the next one are in one range of
the result only if they were in one range before; and neither the order of the ranges nor
repetitions matter. -/
theorem merge_components (rs : List IdRange) :
    Separated (merge rs) ∧
    (∀ r ∈ rs, ∃! m, m ∈ merge rs ∧ r.Within m) ∧
    (∀ a ∈ rs, ∀ b ∈ rs, (∃ m ∈ merge rs, a.Within m ∧ b.Within m) ↔ Linked rs a b) ∧
    (∀ m, m ∈ merge rs ↔ ∃ r ∈ rs, Spans rs r m) ∧
    (∀ id, Covers (merge rs) id ↔ Covers rs id) ∧
    (∀ id, Bridges (merge rs) id ↔ Bridges rs id) ∧
    (∀ ss : List IdRange, (∀ r, r ∈ ss ↔ r ∈ rs) → merge ss = merge rs) ∧
    merge (merge rs) = merge rs ∧
    (rs ≠ [] → merge rs ≠ []) := by
  refine ⟨merge_separated rs, fun r hr => ?_, fun a ha b hb => ⟨?_, fun h => ?_⟩,
    fun m => mem_merge_iff, fun id => covers_merge, fun id => bridges_merge,
    fun ss h => merge_congr h, merge_of_separated (merge_separated rs), merge_ne_nil⟩
  · obtain ⟨m, hm, hrm⟩ := exists_within hr
    refine ⟨m, ⟨hm, hrm⟩, ?_⟩
    rintro m' ⟨hm', hrm'⟩
    exact eq_of_mem_merge hm' hm hrm' hrm (share_self r)
  · rintro ⟨m, hm, ham, hbm⟩
    exact linked_of_within hm ha hb ham hbm
  · obtain ⟨m, hm, ham⟩ := exists_within ha
    exact ⟨m, hm, ham, h.within hm ham⟩

/-- A chain of three ranges, one of which lies in another, and two that follow each other without a
common number. -/
theorem merge_components_chain :
    let low : IdRange := ⟨3, 5, by decide, by decide, by decide⟩
    let upper : IdRange := ⟨5, 9, by decide, by decide, by decide⟩
    let inner : IdRange := ⟨6, 6, by decide, by decide, by decide⟩
    let next : IdRange := ⟨10, maxId, by decide, by decide, by decide⟩
    let rs := [inner, next, upper, low, inner]
    (∃! m, m ∈ merge rs ∧ inner.Within m) ∧ Linked rs low inner ∧ ¬ Linked rs upper next ∧
    merge [low, upper, inner, next] = merge rs ∧ merge rs ≠ [] := by
  intro low upper inner next rs
  have hinner : inner ∈ rs := by decide
  have hlow : low ∈ rs := by decide
  have hupper : upper ∈ rs := by decide
  have hnext : next ∈ rs := by decide
  obtain ⟨-, hwithin, hlinked, -, -, -, horder, -, hne⟩ := merge_components rs
  have hmerged : merge rs = [⟨3, 9, by decide, by decide, by decide⟩, next] := by decide
  refine ⟨hwithin inner hinner, (hlinked low hlow inner hinner).1 ?_,
    fun h => ?_, horder _ fun r => ?_, hne (List.cons_ne_nil _ _)⟩
  · rw [hmerged]
    exact ⟨_, List.mem_cons_self .., by decide, by decide⟩
  · obtain ⟨m, hm, hum, hnm⟩ := (hlinked upper hupper next hnext).2 h
    rw [hmerged] at hm
    rcases List.mem_pair.1 hm with rfl | rfl
    · exact absurd hnm (by decide)
    · exact absurd hum (by decide)
  · simp only [rs, List.mem_cons, List.not_mem_nil, or_false]
    tauto

end IdRange

end ImapRequest

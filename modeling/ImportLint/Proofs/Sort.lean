import Mathlib.Data.List.Basic
import Mathlib.Order.Compare

/-!
# Stable sorts

A **stable sort** of a list has the same members in order, and those that are equal in order stand
as they stood before. Under a total order every list has exactly one, and sorting by merging finds
it.
-/

namespace ImportLint

variable {α : Type}

/-! ## Orders given by comparisons -/

section

variable (cmp : α → α → Ordering)

/-- An order by comparison is total. -/
theorem isLE_total [Std.OrientedCmp cmp] (x y : α) : ((cmp x y).isLE || (cmp y x).isLE) = true := by
  rw [@Std.OrientedCmp.eq_swap _ cmp _ y x]
  cases cmp x y <;> rfl

/-- An order by comparison is transitive. -/
theorem isLE_trans [Std.TransCmp cmp] (x y z : α) (hxy : (cmp x y).isLE = true)
    (hyz : (cmp y z).isLE = true) : (cmp x z).isLE = true :=
  Std.TransCmp.isLE_trans hxy hyz

end

/-! ## Sorts -/

/-- A list is a **stable sort** of another: it has the same members, they are in order, and those
that are equal in order to any item are the same list. -/
structure IsStableSort (le : α → α → Bool) (xs ys : List α) : Prop where
  perm : ys.Perm xs
  ordered : ys.Pairwise fun x y => le x y = true
  stable : ∀ x, ys.filter (fun y => le x y && le y x) = xs.filter fun y => le x y && le y x

section

variable {le : α → α → Bool} {xs ys zs : List α} (htotal : ∀ x y, (le x y || le y x) = true)
  (htrans : ∀ x y z, le x y = true → le y z = true → le x z = true)

include htotal in
/-- A total order is reflexive. -/
theorem le_self_of_total (x : α) : le x x = true := by
  simpa using htotal x x

include htotal htrans in
/-- Merge sort is a stable sort. -/
theorem isStableSort_mergeSort : IsStableSort le xs (xs.mergeSort le) where
  perm := List.mergeSort_perm xs le
  ordered := List.pairwise_mergeSort htrans htotal xs
  stable x := by
    have hclass : (xs.filter fun y => le x y && le y x).Pairwise fun y z => le y z = true := by
      refine List.pairwise_of_forall_mem_list fun y hy z hz => ?_
      obtain ⟨-, hyx⟩ := Bool.and_eq_true_iff.1 (List.mem_filter.1 hy).2
      obtain ⟨hxz, -⟩ := Bool.and_eq_true_iff.1 (List.mem_filter.1 hz).2
      exact htrans y x z hyx hxz
    -- The class is in order already, so it is found again in the sorted list.
    have hsub := (List.sublist_mergeSort htrans htotal hclass List.filter_sublist).filter
      fun y => le x y && le y x
    rw [List.filter_filter] at hsub
    simp only [Bool.and_self] at hsub
    refine (hsub.eq_of_length ?_).symm
    exact ((List.mergeSort_perm xs le).filter _).length_eq.symm

include htotal in
/-- Lists in order with the same classes are equal. -/
theorem eq_of_ordered_of_stable (hys : ys.Pairwise fun x y => le x y = true)
    (hzs : zs.Pairwise fun x y => le x y = true) (hperm : ys.Perm zs)
    (hstable : ∀ x, ys.filter (fun y => le x y && le y x) = zs.filter fun y => le x y && le y x) :
    ys = zs := by
  induction ys generalizing zs with
  | nil => exact hperm.nil_eq
  | cons y ys ih =>
    cases zs with
    | nil => exact hperm.eq_nil
    | cons z zs =>
      obtain ⟨hy, hysTail⟩ := List.pairwise_cons.1 hys
      obtain ⟨hz, hzsTail⟩ := List.pairwise_cons.1 hzs
      -- Each of the first items comes before the other one.
      have hyz : le y z = true := by
        rcases List.mem_cons.1 (hperm.mem_iff.2 List.mem_cons_self) with rfl | hmem
        · exact le_self_of_total htotal z
        · exact hy z hmem
      have hzy : le z y = true := by
        rcases List.mem_cons.1 (hperm.mem_iff.1 List.mem_cons_self) with rfl | hmem
        · exact le_self_of_total htotal y
        · exact hz y hmem
      have hclass := hstable y
      rw [List.filter_cons_of_pos (by simp [le_self_of_total htotal y]),
        List.filter_cons_of_pos (by simp [hyz, hzy])] at hclass
      obtain rfl := (List.cons.inj hclass).1
      congr 1
      refine ih hysTail hzsTail ((List.perm_cons y).1 hperm) fun x => ?_
      have hx := hstable x
      rw [List.filter_cons, List.filter_cons] at hx
      split at hx
      · exact (List.cons.inj hx).2
      · exact hx

include htotal in
/-- A list has one stable sort. -/
theorem IsStableSort.unique (hys : IsStableSort le xs ys) (hzs : IsStableSort le xs zs) : ys = zs :=
  eq_of_ordered_of_stable htotal hys.ordered hzs.ordered (hys.perm.trans hzs.perm.symm)
    fun x => (hys.stable x).trans (hzs.stable x).symm

end

/-! ## Stable sorts of parts -/

section

variable {le : α → α → Bool} (htotal : ∀ x y, (le x y || le y x) = true)
  (htrans : ∀ x y z, le x y = true → le y z = true → le x z = true)

include htotal htrans

/-- A sort puts an item behind those that come before it strictly, and before all others. -/
theorem mergeSort_cons_eq (x : α) (xs : List α) :
    (x :: xs).mergeSort le = (xs.mergeSort le).filter (fun y => !le x y) ++
      x :: (xs.mergeSort le).filter (le x) := by
  obtain ⟨front, back, hcons, htail, hfront⟩ := List.mergeSort_cons htrans htotal x xs
  have hback : ∀ y ∈ back, le x y = true := by
    have hordered := List.pairwise_mergeSort htrans htotal (x :: xs)
    rw [hcons, List.pairwise_append] at hordered
    exact (List.pairwise_cons.1 hordered.2.1).1
  have hfront' : ∀ y ∈ front, le x y = false := fun y hy => by simpa using hfront y hy
  rw [hcons, htail, List.filter_append, List.filter_append, List.filter_eq_self.2 hfront,
    List.filter_eq_self.2 hback]
  rw [List.filter_eq_nil_iff.2 fun y hy => by simp [hback y hy],
    List.filter_eq_nil_iff.2 fun y hy => by simp [hfront' y hy], List.append_nil, List.nil_append]

/-- Sorting keeps a sublist one. -/
theorem mergeSort_sublist_mergeSort {xs ys : List α} (h : xs.Sublist ys) :
    (xs.mergeSort le).Sublist (ys.mergeSort le) := by
  induction h with
  | slnil => exact .refl _
  | @cons xs ys y _ ih =>
    obtain ⟨front, back, hcons, htail, -⟩ := List.mergeSort_cons htrans htotal y ys
    rw [hcons]
    rw [htail] at ih
    exact ih.middle y
  | cons_cons x _ ih =>
    rw [mergeSort_cons_eq htotal htrans, mergeSort_cons_eq htotal htrans]
    exact (ih.filter _).append ((ih.filter _).cons_cons x)

/-- Where what is kept of the items decides their order, stable sorts keep it a sublist. -/
theorem IsStableSort.map_sublist {β : Type} {le' : β → β → Bool} {f : β → α}
    (hle : ∀ x y, le' x y = le (f x) (f y)) {xs ys xs' ys' : List β} (h : IsStableSort le' xs ys)
    (h' : IsStableSort le' xs' ys') (hsub : (xs'.map f).Sublist (xs.map f)) :
    (ys'.map f).Sublist (ys.map f) := by
  have htotal' (x y : β) : (le' x y || le' y x) = true := by
    rw [hle, hle]
    exact htotal (f x) (f y)
  have htrans' (x y z : β) (hxy : le' x y = true) (hyz : le' y z = true) : le' x z = true := by
    rw [hle] at *
    exact htrans (f x) (f y) (f z) hxy hyz
  rw [h.unique htotal' (isStableSort_mergeSort htotal' htrans'),
    h'.unique htotal' (isStableSort_mergeSort htotal' htrans'),
    List.map_mergeSort fun x _ y _ => hle x y, List.map_mergeSort fun x _ y _ => hle x y]
  exact mergeSort_sublist_mergeSort htotal htrans hsub

end

/-- Parts that are sorted before they are put together make no difference. -/
theorem IsStableSort.of_append {le : α → α → Bool} {xs xs' ys ys' zs : List α}
    (hxs : IsStableSort le xs xs') (hys : IsStableSort le ys ys')
    (h : IsStableSort le (xs' ++ ys') zs) : IsStableSort le (xs ++ ys) zs where
  perm := h.perm.trans (hxs.perm.append hys.perm)
  ordered := h.ordered
  stable x := by
    rw [h.stable, List.filter_append, List.filter_append, hxs.stable, hys.stable]

/-- A stable sort of some of the items is found in a stable sort of all. -/
theorem IsStableSort.filter {le : α → α → Bool} {xs ys : List α}
    (h : IsStableSort le xs ys) (p : α → Bool) : IsStableSort le (xs.filter p) (ys.filter p) where
  perm := h.perm.filter p
  ordered := h.ordered.filter p
  stable x := by
    rw [List.filter_comm _ p ys, List.filter_comm _ p xs, h.stable]

end ImportLint

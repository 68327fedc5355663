import ImportLint.Path.Basic
import Mathlib.Order.Compare

/-!
# The order of paths

Components are ordered by kind and then by name, paths by their lists of components. Both orders are
total and transitive, and two paths are equal in order exactly if they have the same components.
-/

namespace ImportLint.Path

/-! ## Components -/

namespace Component

/-- The order of names: by their bytes. -/
def compareNames (x y : List UInt8) : Ordering := compareOfLessAndEq x y

/-- The order of names is transitive. -/
instance : Std.TransCmp compareNames :=
  Std.TransCmp.compareOfLessAndEq_of_irrefl_of_trans_of_antisymm List.lt_irrefl
    (fun hxy hyz => List.lt_trans hxy hyz) (fun hxy hyx => List.le_antisymm hyx hxy)

/-- Only equal names compare as equal. -/
theorem compareNames_eq_eq_iff {x y : List UInt8} : compareNames x y = .eq ↔ x = y := by
  rw [compareNames, compareOfLessAndEq]
  constructor
  · intro h
    split at h
    · cases h
    · split at h
      · assumption
      · cases h
  · rintro rfl
    rw [if_neg (List.lt_irrefl x), if_pos rfl]

/-- The name of a component, which is empty for those that have none. -/
def name : Component → List UInt8
  | named name => name
  | _ => []

/-- The order of components: by their kinds, then by their names. -/
theorem compare_eq_compareLex : Component.compare =
    compareLex (compareOn compare.rank) (fun x y => compareNames x.name y.name) := by
  funext x y
  cases x <;> cases y <;> rfl

/-- The order of components by their names is transitive. -/
instance : Std.TransCmp fun x y : Component => compareNames x.name y.name where
  eq_swap := @fun x y => @Std.OrientedCmp.eq_swap _ compareNames _ x.name y.name
  isLE_trans := @fun x y z => @Std.TransCmp.isLE_trans _ compareNames _ x.name y.name z.name

/-- The order of components is transitive. -/
instance : Std.TransCmp Component.compare := by
  rw [compare_eq_compareLex]
  infer_instance

/-- Only equal components compare as equal. -/
theorem compare_eq_eq_iff {x y : Component} : x.compare y = .eq ↔ x = y := by
  rw [compare_eq_compareLex, compareLex_eq_eq, compareNames_eq_eq_iff, compareOn, Nat.compare_eq_eq]
  constructor
  · rintro ⟨hrank, hname⟩
    cases x <;> cases y <;> simp_all [compare.rank, name]
  · rintro rfl
    exact ⟨rfl, rfl⟩

end Component

/-! ## Paths -/

/-- Components in a row are compared one by one. -/
theorem compareComponents_eq_compareLex :
    compareComponents = List.compareLex Component.compare := by
  funext xs ys
  induction xs generalizing ys with
  | nil => cases ys <;> rfl
  | cons x xs ih =>
    cases ys with
    | nil => rfl
    | cons y ys => rw [compareComponents, ih, List.compareLex_cons_cons]

/-- The order of components in a row is transitive. -/
instance : Std.TransCmp compareComponents := by
  rw [compareComponents_eq_compareLex]
  infer_instance

/-- Only equal components in a row compare as equal. -/
theorem compareComponents_eq_eq_iff {xs ys : List Component} :
    compareComponents xs ys = .eq ↔ xs = ys := by
  induction xs generalizing ys with
  | nil => cases ys <;> simp [compareComponents]
  | cons x xs ih =>
    cases ys with
    | nil => simp [compareComponents]
    | cons y ys =>
      rw [compareComponents, Ordering.then_eq_eq, Component.compare_eq_eq_iff, ih, List.cons.injEq]

/-- The order of paths is transitive. -/
instance : Std.TransCmp Path.compare where
  eq_swap := @fun p q => @Std.OrientedCmp.eq_swap _ compareComponents _ p.components q.components
  isLE_trans := @fun p q r =>
    @Std.TransCmp.isLE_trans _ compareComponents _ p.components q.components r.components

/-- Paths are equal in order if they have the same components, however they are written. -/
theorem compare_eq_eq_iff {p q : Path} : p.compare q = .eq ↔ p.components = q.components :=
  compareComponents_eq_eq_iff

end ImportLint.Path

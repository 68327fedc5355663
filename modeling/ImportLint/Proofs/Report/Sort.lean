import ImportLint.Report.Basic
import ImportLint.Proofs.Path.Order
import ImportLint.Proofs.Sort

/-!
# Sorting reports

Places are ordered by file, line and column, and that order is total and transitive. The violations
of a sorted report are a stable sort of those of the report.
-/

namespace ImportLint

/-- Locations are ordered by their files, then by their lines and columns. -/
theorem Location.compare_eq_compareLex : Location.compare =
    compareLex (fun x y => x.file.compare y.file)
      (compareLex (compareOn line) (compareOn column)) := rfl

/-- The order of locations by their files is transitive. -/
instance : Std.TransCmp fun x y : Location => x.file.compare y.file where
  eq_swap := @fun x y => @Std.OrientedCmp.eq_swap _ Path.compare _ x.file y.file
  isLE_trans := @fun x y z => @Std.TransCmp.isLE_trans _ Path.compare _ x.file y.file z.file

/-- The order of locations is transitive. -/
instance : Std.TransCmp Location.compare := by
  rw [Location.compare_eq_compareLex]
  infer_instance

namespace Report

/-- Of two violations one is in order before the other. -/
theorem inOrder_total (x y : Violation) : (inOrder x y || inOrder y x) = true :=
  isLE_total Location.compare x.location y.location

/-- The order of violations is transitive. -/
theorem inOrder_trans (x y z : Violation) (hxy : inOrder x y = true) (hyz : inOrder y z = true) :
    inOrder x z = true :=
  isLE_trans Location.compare x.location y.location z.location hxy hyz

/-- **A sorted report** has the violations in stable order. -/
theorem isStableSort_sort (r : Report) : IsStableSort inOrder r.violations r.sort.violations :=
  isStableSort_mergeSort inOrder_total inOrder_trans

end Report

end ImportLint

import ImportLint.Report.Violation

/-!
# Reports

A **report** is what checking some files found: the violations, in some order, and how many files
were looked at. Reports are added up, sorted by place and counted by severity.
-/

namespace ImportLint

/-- A report. -/
structure Report where
  violations : List Violation
  filesChecked : Nat
  deriving DecidableEq, Repr

/-- How many violations there are of each severity. -/
structure Counts where
  errors : Nat
  warnings : Nat
  infos : Nat
  deriving DecidableEq, Repr

namespace Report

/-- The report on no files. -/
def empty : Report := ⟨[], 0⟩

/-- The report on no files is written as the empty collection. -/
instance : EmptyCollection Report := ⟨empty⟩

/-- Two reports as one. -/
def append (a b : Report) : Report :=
  ⟨a.violations ++ b.violations, a.filesChecked + b.filesChecked⟩

/-- Reports are added up by `++`. -/
instance : Append Report := ⟨append⟩

/-- There are no violations in no files. -/
@[simp] theorem violations_empty : (∅ : Report).violations = [] := rfl

/-- No files are counted where none are checked. -/
@[simp] theorem filesChecked_empty : (∅ : Report).filesChecked = 0 := rfl

/-- Two reports together have the violations of the first, and then those of the second. -/
@[simp] theorem violations_append (a b : Report) :
    (a ++ b).violations = a.violations ++ b.violations := rfl

/-- Two reports together count the files of both. -/
@[simp] theorem filesChecked_append (a b : Report) :
    (a ++ b).filesChecked = a.filesChecked + b.filesChecked := rfl

/-- Whether a violation may stand before another. -/
def inOrder (a b : Violation) : Bool := (a.location.compare b.location).isLE

/-- A report with its violations in the order of their places; those of one place keep their
order. -/
def sort (r : Report) : Report := ⟨r.violations.mergeSort inOrder, r.filesChecked⟩

/-- Sorting a report does not change the count of files. -/
@[simp] theorem filesChecked_sort (r : Report) : r.sort.filesChecked = r.filesChecked := rfl

/-- The number of violations of one severity. -/
def count (r : Report) (s : Severity) : Nat := (r.violations.filter (·.severity == s)).length

/-- The number of violations of each severity. -/
def counts (r : Report) : Counts := ⟨r.count .error, r.count .warning, r.count .info⟩

/-- Whether some violation is at least so grave. -/
def hasViolationsAt (r : Report) (s : Severity) : Bool := r.violations.any (s ≤ ·.severity)

/-- Whether some violation is an error. -/
def hasErrors (r : Report) : Bool := r.hasViolationsAt .error

end Report

end ImportLint

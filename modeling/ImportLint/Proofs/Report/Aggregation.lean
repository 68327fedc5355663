import ImportLint.Proofs.Report.Sort

/-!
# Adding up reports

A report grows by single violations and by whole reports, and may be put in order at any time.
Sorting is a stable sort by place: it keeps the counts, does nothing a second time, and need not be
done to the parts before it is done to the whole. The counts only add up what was added, whatever
the steps and their order.
-/

namespace ImportLint

/-! ## The order of places -/

namespace Location

/-- What a place is sorted by: the components of its file, its line and its column. -/
def key (a : Location) : List Path.Component × Nat × Nat := (a.file.components, a.line, a.column)

/-- Whether a place stands **at or before** another: its file comes first, or else its line in the
same file, or else its column does not come later in the same line. -/
def IsAtOrBefore (a b : Location) : Prop :=
  Path.compareComponents a.file.components b.file.components = .lt ∨
    a.file.components = b.file.components ∧
      (a.line < b.line ∨ a.line = b.line ∧ a.column ≤ b.column)

variable {a b : Location}

/-- Locations compare as equal exactly if they have the same key. -/
theorem compare_eq_eq_iff : a.compare b = .eq ↔ a.key = b.key := by
  simp only [compare, Ordering.then_eq_eq, Path.compare_eq_eq_iff,
    Nat.compare_eq_eq, key, Prod.mk.injEq]

/-- A location compares as at most another exactly if it is at or before it. -/
theorem isLE_compare_iff : (a.compare b).isLE = true ↔ a.IsAtOrBefore b := by
  have hfile : a.file.compare b.file = Path.compareComponents a.file.components b.file.components :=
    rfl
  rw [compare, IsAtOrBefore, ← Path.compareComponents_eq_eq_iff, ← hfile]
  cases a.file.compare b.file with
  | lt => simp
  | gt => simp
  | eq =>
    rcases Nat.lt_trichotomy a.line b.line with h | h | h
    · simp [Nat.compare_eq_lt.2 h, h]
    · simp [h, Nat.isLE_compare]
    · simp [Nat.compare_eq_gt.2 h, Nat.lt_asymm h, Nat.ne_of_gt h]

end Location

namespace Report

/-- Violations are in order exactly if their locations are. -/
theorem inOrder_iff {v w : Violation} : inOrder v w = true ↔ v.location.IsAtOrBefore w.location :=
  Location.isLE_compare_iff

/-- Two violations are equal in order exactly if their places have the same key. -/
theorem inOrder_and_inOrder (v w : Violation) :
    (inOrder v w && inOrder w v) = decide (w.location.key = v.location.key) := by
  have hswap := @Std.OrientedCmp.eq_swap _ Location.compare _ w.location v.location
  rw [Bool.eq_iff_iff, decide_eq_true_eq, ← Location.compare_eq_eq_iff, inOrder, inOrder, hswap]
  cases v.location.compare w.location <;> decide

/-! ## Sorted reports -/

/-- A report in order is left as it is. -/
theorem sort_sort (r : Report) : r.sort.sort = r.sort := by
  have h := List.mergeSort_of_pairwise r.isStableSort_sort.ordered
  simp only [sort] at h ⊢
  rw [h]

/-- Reports may be sorted before they are put together. -/
theorem sort_append_sort (a b : Report) : (a.sort ++ b.sort).sort = (a ++ b).sort := by
  have hparts :=
    a.isStableSort_sort.of_append b.isStableSort_sort (isStableSort_sort (a.sort ++ b.sort))
  have hviolations := hparts.unique inOrder_total (isStableSort_sort (a ++ b))
  exact congrArg₂ Report.mk hviolations rfl

end Report

/-! ## Counts -/

namespace Counts

/-- The count for one severity. -/
def of (c : Counts) : Severity → Nat
  | .error => c.errors
  | .warning => c.warnings
  | .info => c.infos

/-- How many violations were counted in all. -/
def total (c : Counts) : Nat := c.errors + c.warnings + c.infos

/-- Nothing is counted as zeros. -/
instance : Zero Counts := ⟨⟨0, 0, 0⟩⟩

/-- Counts are added severity by severity. -/
instance : Add Counts :=
  ⟨fun c d => ⟨c.errors + d.errors, c.warnings + d.warnings, c.infos + d.infos⟩⟩

/-- Of three counts in a row, the sum does not depend on which two are added first. -/
theorem add_assoc (c d e : Counts) : c + d + e = c + (d + e) := by
  show Counts.mk (_ + _ + _) (_ + _ + _) (_ + _ + _) = _
  rw [Nat.add_assoc, Nat.add_assoc, Nat.add_assoc]
  rfl

end Counts

namespace Report

/-- The counts of a report are its counts for each severity. -/
theorem of_counts (r : Report) (s : Severity) : r.counts.of s = r.count s := by
  cases s <;> rfl

/-- Two reports together have the counts of both. -/
theorem counts_append (a b : Report) : (a ++ b).counts = a.counts + b.counts := by
  have hcount (s : Severity) : (a ++ b).count s = a.count s + b.count s := by
    rw [count, violations_append, List.filter_append, List.length_append]
    rfl
  rw [counts, hcount, hcount, hcount]
  rfl

/-- Sorting a report keeps its counts. -/
theorem counts_sort (r : Report) : r.sort.counts = r.counts := by
  have hcount (s : Severity) : r.sort.count s = r.count s :=
    (r.isStableSort_sort.perm.filter _).length_eq
  rw [counts, hcount, hcount, hcount]
  rfl

/-- Each violation is counted once. -/
theorem total_counts (r : Report) : r.counts.total = r.violations.length := by
  obtain ⟨vs, n⟩ := r
  induction vs with
  | nil => rfl
  | cons v vs ih =>
    simp only [counts, Counts.total, count, List.filter_cons, List.length_cons] at ih ⊢
    cases hv : v.severity <;> simp <;> omega

/-- There are violations so grave exactly if some count from there on is not zero. -/
theorem hasViolationsAt_iff (r : Report) (s : Severity) :
    r.hasViolationsAt s = true ↔ ∃ t, s ≤ t ∧ r.counts.of t ≠ 0 := by
  simp only [hasViolationsAt, List.any_eq_true, decide_eq_true_eq, of_counts, count]
  constructor
  · rintro ⟨v, hv, hs⟩
    have hmem : v ∈ r.violations.filter (·.severity == v.severity) :=
      List.mem_filter.2 ⟨hv, beq_self_eq_true v.severity⟩
    exact ⟨v.severity, hs, Nat.ne_of_gt (List.length_pos_of_mem hmem)⟩
  · rintro ⟨t, hs, ht⟩
    obtain ⟨v, hv⟩ := List.exists_mem_of_length_pos (Nat.pos_of_ne_zero ht)
    obtain ⟨hmem, hsev⟩ := List.mem_filter.1 hv
    exact ⟨v, hmem, (beq_iff_eq.1 hsev).symm ▸ hs⟩

/-! ## Steps -/

/-- A step in which a report grows or is put in order. -/
inductive Step where
  | push (v : Violation)
  | extend (other : Report)
  | sort

/-- What a step adds. -/
def Step.added : Step → Report
  | push v => ⟨[v], 0⟩
  | extend other => other
  | sort => ∅

/-- The report after a step. -/
def next (r : Report) : Step → Report
  | .push v => { r with violations := r.violations ++ [v] }
  | .extend other => r ++ other
  | .sort => r.sort

/-- The report after some steps. -/
def run (r : Report) (steps : List Step) : Report := steps.foldl next r

/-- **A step** adds to the counts what it adds to the report. -/
theorem counts_next (r : Report) (t : Step) : (r.next t).counts = r.counts + t.added.counts := by
  cases t with
  | push v => exact counts_append r ⟨[v], 0⟩
  | extend other => exact counts_append r other
  | sort => exact r.counts_sort

/-- **The counts add up** what the steps added. -/
theorem counts_run (r : Report) (steps : List Step) :
    (r.run steps).counts = r.counts + (steps.map (·.added.counts)).sum := by
  induction steps generalizing r with
  | nil => rfl
  | cons t steps ih =>
    rw [List.map_cons, List.sum_cons, ← Counts.add_assoc, ← counts_next]
    exact ih (r.next t)

/-- **The algebra of reports**: sorting is a stable sort by file, line and column that may be done
again and to the parts first, and after any steps the counts are the sum of what was added, one for
each violation. -/
theorem aggregation :
    (∀ r : Report, r.sort.violations.Perm r.violations ∧
      r.sort.violations.Pairwise (fun v w => v.location.IsAtOrBefore w.location) ∧
      (∀ v : Violation, r.sort.violations.filter (·.location.key = v.location.key) =
        r.violations.filter (·.location.key = v.location.key)) ∧
      r.sort.sort = r.sort) ∧
    (∀ a b : Report, (a ++ b).sort = (a.sort ++ b.sort).sort) ∧
    ∀ (r : Report) (steps : List Step),
      (r.run steps).counts = r.counts + (steps.map (·.added.counts)).sum ∧
      (r.run steps).counts.total = (r.run steps).violations.length ∧
      (r.run steps).sort.counts = (r.run steps).counts ∧
      ∀ s, (r.run steps).hasViolationsAt s = true ↔ ∃ t, s ≤ t ∧ (r.run steps).counts.of t ≠ 0 := by
  refine ⟨fun r => ⟨r.isStableSort_sort.perm, ?_, fun v => ?_, r.sort_sort⟩,
    fun a b => (sort_append_sort a b).symm, fun r steps =>
      ⟨counts_run r steps, total_counts _, counts_sort _, hasViolationsAt_iff _⟩⟩
  · exact r.isStableSort_sort.ordered.imp inOrder_iff.1
  · simpa only [inOrder_and_inOrder] using r.isStableSort_sort.stable v

end Report

end ImportLint

import ImportLint.Proofs.Analysis.Outcome
import ImportLint.Proofs.Path.Relative
import ImportLint.Proofs.Rule.Violations

/-!
# Files that are discovered

A file that is discovered has a place below the root, and its path relative to the root is made of
the names on the way there. In this form the files stand in the same order, and this is the form in
which violations cite them. The path leads to the place itself or, if there is a link, to one that
is linked.
-/

namespace ImportLint.Analyzer

variable {a : Analyzer} {m : Machine} {base names names' : List FileName} {file : Path}

/-! ## The place of a file -/

/-- A file is listed **at** names below the place of the root: they are proper, lead to something,
and the path that they make leads to a file. -/
structure IsListedAt (a : Analyzer) (m : Machine) (base names : List FileName)
    (file : Path) : Prop where
  root : m.files.locate? a.root = some base
  path : file = a.pathAt names
  proper : ∀ n ∈ names, isProperName n = true
  there : ∃ u, m.files.at? (base ++ names) = some u
  isFile : m.isFile file = true

/-- A file discovered is listed at some place below the root. -/
theorem exists_isListedAt_of_discover (hproper : m.files.isProper = true) {files : List Path}
    (h : a.discover m = .ok files) (hfile : file ∈ files) :
    ∃ base names, a.IsListedAt m base names file := by
  obtain ⟨base, tree, hbase, htree, rfl⟩ := exists_of_discover_eq_ok h
  rw [List.mem_mergeSort, mem_listing_iff hproper htree] at hfile
  obtain ⟨names, u, rfl, hu, -, -, htakes⟩ := hfile
  have hnames : ∀ n ∈ names, isProperName n = true := by
    intro n hn
    exact (FileTree.isProper_of_at? hproper hu).2 n (List.mem_append_right base hn)
  exact ⟨base, names, hbase, rfl, hnames, ⟨u, hu⟩, (Bool.and_eq_true_iff.1 htakes).1⟩

/-- Paths below an absolute root are absolute. -/
theorem isAbsolute_pathAt (habs : a.root.isAbsolute = true) :
    (a.pathAt names).isAbsolute = true := by
  unfold pathAt
  split
  · exact habs
  · exact Path.isAbsolute_join habs _

/-- The path relative to the root is made of the names. -/
theorem relative_pathAt (habs : a.root.isAbsolute = true)
    (hnames : ∀ n ∈ names, isProperName n = true) :
    a.relative (a.pathAt names) = pathOfNames names := by
  unfold relative pathAt
  split
  · next hempty =>
    rw [List.isEmpty_iff.1 hempty, Path.stripPrefix?_self habs]
    rfl
  · next hne => rw [Path.stripPrefix?_join habs (by simpa using hne) hnames, Option.getD_some]

/-- Relative paths are in the order of the files. -/
theorem compare_relative_pathAt (habs : a.root.isAbsolute = true)
    (hnames : ∀ n ∈ names, isProperName n = true) (hnames' : ∀ n ∈ names', isProperName n = true) :
    (a.relative (a.pathAt names)).compare (a.relative (a.pathAt names')) =
      (a.pathAt names).compare (a.pathAt names') := by
  rw [relative_pathAt habs hnames, relative_pathAt habs hnames', Path.compare, Path.compare,
    components_pathAt habs hnames, components_pathAt habs hnames', Path.compareComponents_append,
    Path.components_pathOfNames hnames, Path.components_pathOfNames hnames']

/-- The relative path of a listed file is made of the names on the way to it. -/
theorem IsListedAt.relative_eq (habs : a.root.isAbsolute = true)
    (h : a.IsListedAt m base names file) : a.relative file = pathOfNames names := by
  rw [h.path, relative_pathAt habs h.proper]

/-- The path of a file leads to its place, or else to a place that is linked. -/
theorem IsListedAt.place_eq_or_isLinked (habs : a.root.isAbsolute = true)
    (h : a.IsListedAt m base names file) {place : List FileName}
    (hplace : m.files.locate? (m.absolute file) = some place) :
    place = base ++ names ∨ m.files.IsLinked place := by
  obtain ⟨hbase, rfl, hnames, ⟨u, hu⟩, -⟩ := h
  rw [Machine.absolute_of_isAbsolute (isAbsolute_pathAt habs)] at hplace
  unfold pathAt at hplace
  split at hplace
  · next hempty =>
    -- A root that is a file is listed itself.
    left
    rw [List.isEmpty_iff.1 hempty, List.append_nil]
    exact Option.some.inj (hplace.symm.trans hbase)
  · next hne =>
    exact FileTree.eq_or_isLinked_of_locate?_join hbase (by simpa using hne) hnames hu hplace

/-! ## The violations of a file -/

/-- A file that no entry selects has no violations, whatever is in it. -/
theorem analyzeFile_of_not_selects
    (hnone : ∀ e ∈ a.config.entries, ¬ e.Selects Matcher.glob (a.relative file)) :
    a.analyzeFile m file = .ok [] := by
  have hgoverning : a.governing? (a.relative file) = none := select_eq_none_iff.2 hnone
  unfold analyzeFile
  rw [hgoverning]
  split <;> rfl

/-- The violations of a file are those of an import statement each, under an entry that governs the
file. -/
theorem exists_of_analyzeFile_eq_ok {vs : List Violation}
    (h : a.analyzeFile m file = .ok vs) : vs = [] ∨
    ∃ x e d source extraction, a.extractorFor? file = some (x, e) ∧
      Governs Matcher.glob a.config.entries (a.relative file) d ∧ m.readText? file = some source ∧
        x.read source e = .ok extraction ∧
          vs = Id.run (checkImports Matcher.glob a.config.severity d (a.relative file)
            extraction.imports) := by
  unfold analyzeFile at h
  split at h
  · exact .inl (Except.ok.inj h).symm
  · next x hx =>
    split at h
    · exact .inl (Except.ok.inj h).symm
    · next d hd =>
      split at h
      · next source hsource =>
        unfold checkSource at h
        split at h
        · next extraction hextraction =>
          exact .inr ⟨x.1, x.2, d, source, extraction, hx, select_eq_some_iff.1 hd,
            hsource, hextraction, (Except.ok.inj h).symm⟩
        · cases h
      · cases h

/-- The violations of a file are located in it, by its relative path. -/
theorem file_of_mem_violationsOf {v : Violation} (hv : v ∈ a.violationsOf m file) :
    v.location.file = a.relative file := by
  unfold violationsOf at hv
  split at hv
  · next vs hvs =>
    rcases exists_of_analyzeFile_eq_ok hvs with rfl | ⟨_, _, _, _, _, -, -, -, -, rfl⟩
    · cases hv
    · exact file_of_mem_checkImports hv
  · cases hv

/-- The violations in files of some kind, of those of several files. -/
theorem filter_flatMap_violationsOf (p : Path → Bool) (files : List Path) :
    (files.flatMap (a.violationsOf m)).filter (fun v => p v.location.file) =
      files.flatMap fun f => if p (a.relative f) then a.violationsOf m f else [] := by
  rw [List.filter_flatMap]
  congr 1
  funext f
  have hfile : ∀ v ∈ a.violationsOf m f, v.location.file = a.relative f :=
    fun v => file_of_mem_violationsOf
  split
  · next hp =>
    rw [List.filter_eq_self]
    intro v hv
    rw [hfile v hv, hp]
  · next hp =>
    rw [List.filter_eq_nil_iff]
    intro v hv
    rwa [hfile v hv]

end ImportLint.Analyzer

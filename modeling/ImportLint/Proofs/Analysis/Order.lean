import ImportLint.Proofs.Analysis.Discovered
import ImportLint.Proofs.Analysis.Source
import ImportLint.Proofs.Script.Imports

/-!
# The order of a report

In a file the violations come in the order of its imports, which start one after the other. The
files come in the order of their paths, and so do their relative paths. So what is found is in
strict order before it is sorted, and sorting leaves it as it is.
-/

namespace ImportLint

/-! ## Places in order -/

namespace Location

/-- A place comes **before** another: it is less in the order of places, and where both are in one
file, fewer bytes come before it. -/
def Before (x y : Location) : Prop := x.compare y = .lt ∧ (x.file = y.file → x.offset < y.offset)

/-- Places in files that are in strict order are. -/
theorem before_of_file {x y : Location} (h : x.file.compare y.file = .lt) : x.Before y := by
  constructor
  · rw [compare, h]
    rfl
  · intro heq
    rw [Path.compare_eq_eq_iff.2 (congrArg Path.components heq)] at h
    cases h

end Location

/-- Imports of a file that start one after the other are at places in strict order. -/
theorem Import.Precedes.before {i j : Import} (h : i.Precedes j) (file : Path) :
    (i.location file).Before (j.location file) := by
  obtain ⟨hoffset, hplace⟩ := h
  have hfile : file.compare file = .eq := Path.compare_eq_eq_iff.2 rfl
  refine ⟨?_, fun _ => hoffset⟩
  show (file.compare file).then
    ((Ord.compare i.line j.line).then (Ord.compare (i.column + 1) (j.column + 1))) = .lt
  rw [hfile, Ordering.eq_then]
  rcases hplace with hline | ⟨hline, hcolumn⟩
  · rw [Nat.compare_eq_lt.2 hline]
    rfl
  · rw [Nat.compare_eq_eq.2 hline, Ordering.eq_then, Nat.compare_eq_lt]
    exact Nat.succ_lt_succ hcolumn

/-- The violations of imports that start one after the other are at places in strict order. -/
theorem pairwise_checkImports {ask : Matcher Id} {severity : Severity} {e : Entry} {file : Path}
    {imports : List Import} (h : imports.Pairwise Import.Precedes) :
    (Id.run (checkImports ask severity e file imports)).Pairwise fun v w =>
      v.location.Before w.location := by
  have hlocations : (imports.map (Import.location file)).Pairwise Location.Before :=
    List.pairwise_map.2 (h.imp fun hij => hij.before file)
  exact List.pairwise_map.1 (hlocations.sublist map_location_checkImports)

namespace Analyzer

variable {a : Analyzer} {m : Machine} {file : Path}

/-! ## What is found -/

/-- The violations of a script are at places in strict order. -/
theorem pairwise_violationsOf (hscript : ∀ x ∈ a.extractors, x = .script) :
    (a.violationsOf m file).Pairwise fun v w => v.location.Before w.location := by
  unfold violationsOf
  split
  · next vs hvs =>
    rcases exists_of_analyzeFile_eq_ok hvs with
      rfl | ⟨x, e, d, source, extraction, hx, -, -, hread, rfl⟩
    · exact .nil
    · obtain ⟨-, before, after, hsplit, -⟩ := extractorFor?_eq_some_iff.1 hx
      obtain rfl : x = .script := hscript x (by simp [hsplit])
      obtain rfl := Except.ok.inj hread
      exact pairwise_checkImports (Script.pairwise_imports_extract source _)
  · exact .nil

/-- The violations of all files are at places in strict order before they are sorted. -/
theorem pairwise_flatMap_violationsOf (habs : a.root.isAbsolute = true)
    (hproper : m.files.isProper = true) (hscript : ∀ x ∈ a.extractors, x = .script)
    {files : List Path} (hfiles : a.discover m = .ok files) :
    (files.flatMap (a.violationsOf m)).Pairwise fun v w => v.location.Before w.location := by
  have horder := pairwise_lt_of_discover habs hproper hfiles
  rw [List.pairwise_flatMap]
  constructor
  · intro f _
    exact pairwise_violationsOf hscript
  -- Violations of different files are in the order of the files.
  apply horder.imp_of_mem
  intro p q hp hq hpq v hv w hw
  apply Location.before_of_file
  obtain ⟨base, names, hlisted⟩ := exists_isListedAt_of_discover hproper hfiles hp
  obtain ⟨base', names', hlisted'⟩ := exists_isListedAt_of_discover hproper hfiles hq
  rw [file_of_mem_violationsOf hv, file_of_mem_violationsOf hw, hlisted.path, hlisted'.path,
    compare_relative_pathAt habs hlisted.proper hlisted'.proper, ← hlisted.path,
    ← hlisted'.path, hpq]

/-- **A report on scripts is in strict order** of files, lines and columns. No two violations are at
one place, and no import statement, which is known by its file and offset, is reported twice. -/
theorem analyze_strictly_ordered (habs : a.root.isAbsolute = true)
    (hproper : m.files.isProper = true) (hscript : ∀ x ∈ a.extractors, x = .script) {r : Report}
    (h : a.analyze m = .ok r) :
    r.violations.Pairwise (fun v w => v.location.compare w.location = .lt) ∧
      (r.violations.map (·.location)).Nodup ∧
      (r.violations.map fun v => (v.location.file, v.location.offset)).Nodup := by
  obtain ⟨files, hfiles, -⟩ := bind_eq_ok_iff.1 h
  have hbefore := pairwise_flatMap_violationsOf habs hproper hscript hfiles
  -- What is in strict order is its own stable sort.
  have hself :
      IsStableSort Report.inOrder (files.flatMap (a.violationsOf m))
        (files.flatMap (a.violationsOf m)) := by
    refine ⟨.refl _, ?_, fun _ => rfl⟩
    apply hbefore.imp
    intro v w hvw
    rw [Report.inOrder, hvw.1]
    rfl
  obtain ⟨-, -, hsort⟩ := (analyze_eq_ok_iff hfiles).1 h
  rw [IsStableSort.unique Report.inOrder_total hsort hself]
  refine ⟨hbefore.imp And.left, List.pairwise_map.2 (hbefore.imp ?_),
    List.pairwise_map.2 (hbefore.imp ?_)⟩
  · rintro v w ⟨hlt, -⟩ heq
    rw [heq, @Std.ReflCmp.compare_self _ Location.compare] at hlt
    cases hlt
  · rintro v w ⟨-, hoffset⟩ heq
    obtain ⟨hfile, heq⟩ := Prod.mk.inj heq
    exact Nat.ne_of_lt (hoffset hfile) heq

/-! ## A script with two imports -/

namespace Order

/-- An analyzer of scripts in the root directory, with one entry that allows no import. -/
def analyzer : Analyzer where
  root := Path.ofString "/"
  config := { entries := [Source.entry] }
  extractors := [Extractor.script]
  exclude := []
  failsOnParseError := false

/-- A script that imports two modules. -/
def source : List Char := "import 'x';\nimport a from \"y\"\n".toList

/-- A machine with the script in its root directory. -/
def machine : Machine where
  files := .directory [(fileName "a.ts", .file (Utf8.encode source))]
  workingDirectory := Path.ofString "/"
  environment := []

/-- The script is all that is discovered. -/
theorem discover_eq : analyzer.discover machine = .ok [Path.ofString "/a.ts"] := by
  have hbase : machine.files.locate? analyzer.root = some [] := by cbv
  have hignore :=
    Machine.hasNoIgnoreFiles_of_allNames (m := machine) (fun s => by cases s <;> decide +kernel) rfl
  have hlinks : machine.files.HasNoLinks :=
    .cons (FileTree.hasNoLinks_file _) FileTree.hasNoLinks_nil
  exact discover_eq_of_filePlaces rfl hbase rfl (by decide +kernel) (hignore []) rfl hlinks rfl
    (by decide +kernel) (by decide +kernel) (by decide +kernel)

set_option maxRecDepth 100000 in
/-- The script has two imports, one on each line. -/
theorem extract_source : Script.extract source .typescript =
    ⟨[⟨"'x'".toList, 0, 11, 1, 0⟩, ⟨"\"y\"".toList, 12, 17, 2, 0⟩], false⟩ := by
  decide +kernel

/-- Each of the imports is a violation. -/
theorem analyzeFile_eq : analyzer.analyzeFile machine (Path.ofString "/a.ts") =
    .ok [⟨"IMP001", "import-patterns", .error, ⟨Path.ofString "a.ts", 1, 1, 0, 11⟩,
        "Imports violates '' restrictions.", none, none⟩,
      ⟨"IMP001", "import-patterns", .error, ⟨Path.ofString "a.ts", 2, 1, 12, 17⟩,
        "Imports violates '' restrictions.", none, none⟩] := by
  have hcomponents : (Path.ofString "/a.ts").components =
      analyzer.root.components ++ [.named (fileName "a.ts")] := by decide +kernel
  have hbelow : analyzer.IsBelow (Path.ofString "/a.ts") := ⟨_, _, hcomponents⟩
  have hx : analyzer.extractorFor? (Path.ofString "/a.ts") = some (.script, ".ts") :=
    extractorFor?_eq_some_iff.2 ⟨by decide +kernel, Reads.head rfl (by decide +kernel)⟩
  have hresolve : machine.resolve? (Path.ofString "/a.ts") = some (.file (Utf8.encode source)) := by
    cbv
  have hread : Extractor.script.read source ".ts" = .ok (Script.extract source .typescript) := rfl
  have hrelative : analyzer.relative (Path.ofString "/a.ts") = Path.ofString "a.ts" := by
    decide +kernel
  have hgoverns :
      Governs Matcher.glob analyzer.config.entries (Path.ofString "a.ts") Source.entry :=
    .head Source.selects
  rw [hbelow.analyzeFile_of_read hx hresolve hread, hrelative,
    check_of_governs hgoverns, extract_source]
  decide +kernel

end Order

/-- The report on the script has two violations, one on each line. -/
theorem analyze_strictly_ordered_script : ∃ r, Order.analyzer.analyze Order.machine = .ok r ∧
    r.violations.length = 2 ∧
      r.violations.Pairwise (fun v w => v.location.compare w.location = .lt) ∧
      (r.violations.map (·.location)).Nodup ∧
      (r.violations.map fun v => (v.location.file, v.location.offset)).Nodup := by
  obtain ⟨r, hr, -, hsort⟩ := analyze_eq_ok Order.discover_eq fun f hf e he => by
    obtain rfl := List.mem_singleton.1 hf
    cases Order.analyzeFile_eq.symm.trans he.1
  refine ⟨r, hr, ?_, analyze_strictly_ordered rfl (by decide +kernel) (by simp [Order.analyzer]) hr⟩
  rw [hsort.perm.length_eq, List.flatMap_singleton, violationsOf, Order.analyzeFile_eq]
  rfl

end Analyzer

end ImportLint

import ImportLint.Command.Run
import ImportLint.Proofs.Analysis.Discovered
import ImportLint.Proofs.Analysis.Source

/-!
# The status of a check

A check that gets as far as a report ends with a status that the violations decide, and prints no
error, as long as the report can be printed. As text it always can be; as JSON if all files in it
have paths that are text; and beside the sources unless the root is a file itself, for then the path
that is read goes on after the file.
-/

namespace ImportLint

/-! ## Printing -/

namespace Report

variable {m : Machine} {root : Path} {r : Report}

/-- A report **is printable** in a format: in JSON if the paths of its files are text, beside the
sources if it has no violations or its root is not a file. -/
def IsPrintable (m : Machine) (root : Path) (r : Report) : OutputFormat → Prop
  | .text | .compact => True
  | .json => ∀ v ∈ r.violations, ∃ s, v.location.file.bytes = Utf8.encode s
  | .pretty => m.isFile root = true → r.violations = []

/-- A report is a document if the paths in it are text. -/
theorem toDocument?_eq_none_iff :
    r.toDocument? = none ↔ ∃ v ∈ r.violations, ∀ s, v.location.file.bytes ≠ Utf8.encode s := by
  have htext (v : Violation) : v.toDocument? = none ↔
      ∀ s, v.location.file.bytes ≠ Utf8.encode s := by
    rw [Violation.toDocument?, Option.map_eq_none_iff, Location.toDocument?, Option.map_eq_none_iff,
      Option.eq_none_iff_forall_ne_some]
    simp only [ne_eq, Utf8.decode?_eq_some_iff]
  rw [toDocument?, Option.map_eq_none_iff, mapM_eq_none_iff]
  simp only [htext]

/-- Printing as a document fails only for a report whose locations cannot be written. -/
theorem error_printJson_eq_none_iff : r.printJson.error = none ↔ r.IsPrintable m root .json := by
  have hdocument := toDocument?_eq_none_iff (r := r)
  unfold printJson IsPrintable
  cases hd : r.toDocument? with
  | some d =>
    rw [hd] at hdocument
    simpa using hdocument
  | none =>
    obtain ⟨v, hv, hnone⟩ := hdocument.1 hd
    constructor
    · intro h
      cases h
    · intro h
      obtain ⟨s, hs⟩ := h v hv
      exact absurd hs (hnone s)

/-- Violations are drawn without a fault if all their sources can be read. -/
theorem error_drawAll_eq_none_iff {vs : List Violation} : (drawAll m root vs).error = none ↔
    ∀ v ∈ vs, (m.readText? (root / v.location.file)).isSome = true := by
  induction vs with
  | nil => simp [drawAll]
  | cons v vs ih =>
    rw [drawAll, List.forall_mem_cons]
    simp only
    cases m.readText? (root / v.location.file) with
    | none => simp
    | some source => simpa using ih

/-- Printing for a reader fails where drawing one of the violations does. -/
theorem error_printPretty : (r.printPretty m root).error = (drawAll m root r.violations).error := by
  unfold printPretty
  simp only
  split
  · next h => exact h.symm
  · rfl

end Report

/-! ## Reading a source again -/

namespace Analyzer

variable {a : Analyzer} {m : Machine} {base names : List FileName} {file : Path}

/-- A file that has violations could be read. -/
theorem exists_readText?_of_mem_violationsOf {v : Violation} (hv : v ∈ a.violationsOf m file) :
    ∃ source, m.readText? file = some source := by
  unfold violationsOf at hv
  split at hv
  · next vs hvs =>
    rcases exists_of_analyzeFile_eq_ok hvs with rfl | ⟨_, _, _, source, _, -, -, hsource, -⟩
    · cases hv
    · exact ⟨source, hsource⟩
  · cases hv

/-- Only a root that is a file has its own place listed. -/
theorem IsListedAt.names_eq_nil_iff (habs : a.root.isAbsolute = true)
    (h : a.IsListedAt m base names file) : names = [] ↔ m.isFile a.root = true := by
  obtain ⟨hbase, rfl, -, ⟨u, hu⟩, hisFile⟩ := h
  constructor
  · rintro rfl
    exact hisFile
  · intro hroot
    obtain ⟨content, hcontent⟩ := Machine.isFile_iff.1 hroot
    rw [Machine.resolve?_of_isAbsolute habs, FileTree.resolve?, hbase, Option.bind_some] at hcontent
    -- There is nothing below a file.
    rw [FileTree.at?_append, hcontent, Option.bind_some] at hu
    cases names with
    | nil => rfl
    | cons n ns => cases hu

/-- The source of a violation is found again under the relative path of its file, unless the root is
that file. -/
theorem IsListedAt.isSome_readText?_iff (habs : a.root.isAbsolute = true)
    (h : a.IsListedAt m base names file) {source : List Char}
    (hsource : m.readText? file = some source) :
    (m.readText? (a.root / a.relative file)).isSome = true ↔ m.isFile a.root = false := by
  have hnames := h.names_eq_nil_iff habs
  rw [h.relative_eq habs]
  by_cases hnil : names = []
  · -- The root is the file itself, and no file is behind the slash that joining adds.
    have hroot := hnames.1 hnil
    obtain ⟨content, hcontent⟩ := Machine.isFile_iff.1 hroot
    have hjoined : (a.root / pathOfNames []).isAbsolute = true := Path.isAbsolute_join habs _
    rw [Machine.resolve?_of_isAbsolute habs, FileTree.resolve?, h.root, Option.bind_some]
      at hcontent
    have hnowhere : m.files.locate? (a.root / pathOfNames []) = none :=
      FileTree.locate?_join_nil h.root hcontent
    rw [hnil, hroot, Machine.readText?_of_isAbsolute hjoined, FileTree.readText?,
      FileTree.read?, FileTree.resolve?, hnowhere]
    simp
  · have hroot : m.isFile a.root = false := Bool.eq_false_iff.2 fun hroot => hnil (hnames.2 hroot)
    have hpath : a.root / pathOfNames names = file := by
      rw [h.path, pathAt, if_neg (by simpa using hnil)]
    rw [hpath, hsource, hroot]
    simp

/-- The violations of a report are those of files that are listed and can be read. -/
theorem exists_isListedAt_of_analyze (hproper : m.files.isProper = true) {r : Report}
    (h : a.analyze m = .ok r) {v : Violation} (hv : v ∈ r.violations) :
    ∃ base names file, a.IsListedAt m base names file ∧
      v.location.file = a.relative file ∧ ∃ source, m.readText? file = some source := by
  obtain ⟨files, hfiles, -⟩ := bind_eq_ok_iff.1 h
  obtain ⟨-, -, hsort⟩ := (analyze_eq_ok_iff hfiles).1 h
  obtain ⟨file, hfile, hv⟩ := List.mem_flatMap.1 (hsort.perm.subset hv)
  obtain ⟨base, names, hlisted⟩ := exists_isListedAt_of_discover hproper hfiles hfile
  exact ⟨base, names, file, hlisted, file_of_mem_violationsOf hv,
    exists_readText?_of_mem_violationsOf hv⟩

/-- A report is printed without an error exactly if it is printable. -/
theorem error_print_eq_none_iff (habs : a.root.isAbsolute = true)
    (hproper : m.files.isProper = true) {r : Report} (h : a.analyze m = .ok r)
    (format : OutputFormat) :
    (r.print m a.root format).error = none ↔ r.IsPrintable m a.root format := by
  cases format with
  | text => exact iff_of_true rfl trivial
  | compact => exact iff_of_true rfl trivial
  | json => exact Report.error_printJson_eq_none_iff
  | pretty =>
    -- The sources are read again, each under the relative path of its file.
    have hread : ∀ v ∈ r.violations,
        ((m.readText? (a.root / v.location.file)).isSome = true ↔ m.isFile a.root = false) := by
      intro v hv
      obtain ⟨base, names, file, hlisted, hfile, source, hsource⟩ :=
        exists_isListedAt_of_analyze hproper h hv
      rw [hfile]
      exact hlisted.isSome_readText?_iff habs hsource
    rw [Report.print, Report.error_printPretty,
      Report.error_drawAll_eq_none_iff, Report.IsPrintable]
    constructor
    · intro hall hroot
      rw [List.eq_nil_iff_forall_not_mem]
      intro v hv
      rw [(hread v hv).1 (hall v hv)] at hroot
      cases hroot
    · intro hnone v hv
      rw [hread v hv, Bool.eq_false_iff]
      intro hroot
      rw [hnone hroot] at hv
      cases hv

end Analyzer

/-! ## The status -/

namespace Machine

variable {m : Machine} {directory : Path} {excludes : List String} {choice : Option Path}
  {a : Analyzer} {r : Report}

/-- The report of a command comes from its analyzer. -/
theorem analyze_of_report (h : m.report directory excludes choice = .ok (a, r)) :
    m.analyzer directory excludes choice = .ok a ∧ a.analyze m = .ok r := by
  obtain ⟨a', ha, h⟩ := bind_eq_ok_iff.1 h
  obtain ⟨r', hr, h⟩ := bind_eq_ok_iff.1 h
  obtain ⟨rfl, rfl⟩ := Prod.mk.inj (pure_eq_ok_iff.1 h)
  exact ⟨ha, mapError_eq_ok_iff.1 hr⟩

/-- The root of an analyzer is absolute where the working directory is. -/
theorem isAbsolute_root_of_analyzer (habs : m.workingDirectory.isAbsolute = true)
    (h : m.analyzer directory excludes choice = .ok a) : a.root.isAbsolute = true := by
  unfold analyzer at h
  split at h
  · cases h
  · obtain ⟨config, -, h⟩ := bind_eq_ok_iff.1 h
    exact Analyzer.isAbsolute_root_of_build habs (mapError_eq_ok_iff.1 h)

/-- **The status of a check** that comes to a report. If the report is printable in the format, the
status is one if some violation is grave enough, and zero if none is, and there is no error. If it
is not, the status is one and there is an error. -/
theorem check_status (habs : m.workingDirectory.isAbsolute = true)
    (hproper : m.files.isProper = true) (h : m.report directory excludes choice = .ok (a, r))
    (format : OutputFormat) :
    (r.IsPrintable m a.root format →
      (m.check directory format excludes choice).error = none ∧
      ((∃ v ∈ r.violations, a.config.failOn ≤ v.severity) →
        (m.check directory format excludes choice).status = 1) ∧
      ((∀ v ∈ r.violations, ¬ a.config.failOn ≤ v.severity) →
        (m.check directory format excludes choice).status = 0)) ∧
    (¬ r.IsPrintable m a.root format →
      (m.check directory format excludes choice).error ≠ none ∧
      (m.check directory format excludes choice).status = 1) := by
  obtain ⟨ha, hr⟩ := analyze_of_report h
  rw [← Analyzer.error_print_eq_none_iff (isAbsolute_root_of_analyzer habs ha) hproper hr format]
  unfold check
  rw [h]
  simp only
  -- A run that fails to print ends with one, whatever there is to print.
  cases herror : (r.print m a.root format).error with
  | some e => simp
  | none =>
    have hgrave : r.hasViolationsAt a.config.failOn = true ↔ ∃ v ∈ r.violations,
        a.config.failOn ≤ v.severity := by
      simp [Report.hasViolationsAt]
    constructor
    · intro _
      refine ⟨rfl, fun hsome => if_pos (hgrave.2 hsome), ?_⟩
      intro hmild
      apply if_neg
      rw [hgrave]
      rintro ⟨v, hv, hsevere⟩
      exact hmild v hv hsevere
    · intro hnot
      exact absurd rfl hnot

end Machine

/-! ## A root that is a file -/

/-- A configuration in TOML is read from the characters of its text. -/
theorem Config.parseToml_of_toList {text : String} {chars : List Char} (h : text.toList = chars) :
    Config.parseToml text =
      match (Toml.read chars).bind (Settings.record? .toml) with
      | some s => s.check
      | none => .error .malformed := by
  subst h
  rfl

/-- A configuration written as two texts is read from the characters of both. -/
theorem Config.parseToml_append {s t : String} {u v : List Char} (hs : s.toList = u)
    (ht : t.toList = v) :
    Config.parseToml (s ++ t) =
      match (Toml.read (u ++ v)).bind (Settings.record? .toml) with
      | some s => s.check
      | none => .error .malformed := by
  rw [parseToml_of_toList (String.toList_append.trans (congrArg₂ _ hs ht))]

namespace Status

/-- A configuration with a root that is a file and one entry, from which no violation is grave
enough. -/
def configuration : String :=
  "severity = \"warning\"\n[analyzer]\nroot = \"a.ts\"\nexclude = []\n[[import-patterns]]\ntarget = \"**\"\n" ++
    "restrictions = \"ok\"\n"

/-- A script with an import that the entry does not allow. -/
def source : List Char := "import 'x';\n".toList

/-- A machine with the script and the configuration. -/
def machine : Machine where
  files := .directory [(fileName "a.ts", .file (Utf8.encode source)),
    (fileName "import-patterns.toml", .file (Utf8.encode configuration.toList))]
  workingDirectory := Path.ofString "/"
  environment := []

/-- The entry of the configuration. -/
def entry : Entry :=
  ⟨⟨"**", [⟨"**".toList, [.anySegments]⟩]⟩, [⟨"ok", [⟨"ok".toList, [.char 'o', .char 'k']⟩]⟩], none⟩

/-- The analyzer that the configuration makes. -/
def analyzer : Analyzer where
  root := Path.ofString "/./a.ts"
  config :=
    { root := Path.ofString "a.ts", exclude := [], severity := .warning, entries := [entry] }
  extractors := [.script]
  exclude := []
  failsOnParseError := false

/-- The violation by the script, whose path relative to the root is empty. -/
def violation : Violation :=
  ⟨"IMP001", "import-patterns", .warning, ⟨⟨[]⟩, 1, 1, 0, 11⟩,
    "Imports violates 'ok' restrictions.", none, none⟩

/-- The configuration is read as that of the analyzer. -/
theorem parseToml_configuration : Config.parseToml configuration = .ok analyzer.config := by
  refine Eq.trans (Config.parseToml_append (u := ?u) (v := ?v) ?front ?rest) ?_
  case front => exact String.toList_ofList
  case rest => exact String.toList_ofList
  decide +kernel

/-- The configuration is read from its file. -/
theorem ofFile_eq :
    Config.ofFile machine (Path.ofString "./import-patterns.toml") = .ok analyzer.config := by
  have hresolve : machine.resolve? (Path.ofString "./import-patterns.toml") =
      some (.file (Utf8.encode configuration.toList)) := by
    -- What is in the files does not matter.
    unfold machine
    generalize Utf8.encode source = script, Utf8.encode configuration.toList = content
    cbv
  have hextension : ((Path.ofString "./import-patterns.toml").extension? ==
      some (Utf8.encode ['j', 's', 'o', 'n'])) = false := by cbv
  rw [Config.ofFile, Machine.readText?_of_resolve? hresolve]
  show Config.parse _ _ = _
  rw [Config.parse, hextension, if_neg Bool.false_ne_true, String.ofList_toList,
    parseToml_configuration]

/-- The analyzer is built from the configuration in the working directory. -/
theorem analyzer_eq : machine.analyzer (Path.ofString ".") [] none = .ok analyzer := by
  have hfind : ConfigSource.find? machine (Path.ofString ".") none =
      some ⟨Path.ofString "./import-patterns.toml", .project⟩ := by
    unfold machine
    generalize Utf8.encode source = script, Utf8.encode configuration.toList = content
    cbv
  have hbuild :
      Analyzer.build machine.workingDirectory (Path.ofString ".") analyzer.config [] [] false =
      .ok analyzer := rfl
  unfold Machine.analyzer
  rw [hfind]
  simp only [ConfigSource.load, ofFile_eq]
  exact congrArg (Except.mapError fun _ => CommandError.badAnalyzer) hbuild

/-- The root leads to the script. -/
theorem locate?_root : machine.files.locate? analyzer.root = some [fileName "a.ts"] := by
  unfold machine
  generalize Utf8.encode source = script, Utf8.encode configuration.toList = content
  cbv

/-- The script is where the root leads. -/
theorem at?_root : machine.files.at? [fileName "a.ts"] = some (.file (Utf8.encode source)) := rfl

/-- The root is resolved to the script. -/
theorem resolve?_root : machine.resolve? analyzer.root = some (.file (Utf8.encode source)) := by
  rw [Machine.resolve?_of_isAbsolute rfl, FileTree.resolve?, locate?_root,
    Option.bind_some, at?_root]

/-- The root has the extension of a script. -/
theorem extractorFor?_root : analyzer.extractorFor? analyzer.root = some (.script, ".ts") :=
  Analyzer.extractorFor?_eq_some_iff.2 ⟨by decide +kernel, Analyzer.Reads.head rfl (.head _)⟩

/-- The root is all that is discovered. -/
theorem discover_eq : analyzer.discover machine = .ok [analyzer.root] := by
  have htakes : analyzer.takes machine analyzer.root = true := by
    rw [Analyzer.takes, Machine.isFile, resolve?_root, extractorFor?_root]
    rfl
  have hlisting (rules : List DirectoryRules) : (((FileTree.file (Utf8.encode source)).walk
      (analyzer.criteria machine [fileName "a.ts"]) rules []).map analyzer.pathAt).filter
        (analyzer.takes machine) =
        [analyzer.root] := by
    rw [FileTree.walk_of_not_directory rfl]
    exact List.filter_cons_of_pos htakes
  have hfile : (FileTree.file (Utf8.encode source)).isDirectory = false := rfl
  rw [Analyzer.discover_eq locate?_root at?_root, hfile, Bool.false_and, if_neg Bool.false_ne_true,
    Analyzer.listing, hlisting, List.mergeSort_singleton]

set_option maxRecDepth 100000 in
/-- The script has one import. -/
theorem extract_source :
    Script.extract source .typescript = ⟨[⟨"'x'".toList, 0, 11, 1, 0⟩], false⟩ := by
  decide +kernel

/-- The entry selects the script, whose relative path is empty. -/
theorem selects : entry.Selects Matcher.glob ⟨[]⟩ := by
  have hfile : (⟨[]⟩ : Path).normalize = [] := by cbv
  rw [entry, Entry.selects_iff_of_directory? (by cbv), hfile]
  simp [Glob.accepts, Glob.matchFrom]

/-- The import is of none of the modules that the entry allows. -/
theorem not_accepts : ∀ r ∈ entry.restrictions,
    Id.run (Matcher.glob ⟨String.ofList ['x'], r⟩) = false := by
  have hadmits : ¬ (Glob.Token.char 'o').admits true 'x' = true := by decide
  have haccepts : Glob.accepts [.char 'o', .char 'k'] (String.ofList ['x']).toList = false := by
    rw [String.toList_ofList, Glob.accepts, Glob.matchFrom_one_cons rfl, if_neg hadmits]
    rfl
  refine List.forall_mem_singleton.2 ?_
  exact (Glob.Pattern.accepts_singleton (by cbv) "ok" _).trans haccepts

/-- The import goes against the entry. -/
theorem checkImports_eq :
    Id.run (checkImports Matcher.glob .warning entry ⟨[]⟩ [⟨"'x'".toList, 0, 11, 1, 0⟩]) =
      [violation] := by
  have hquotes : Quotes "'x'".toList ['x'] := unquote?_eq_some_iff.1 (by cbv)
  exact checkImports_eq_iff.2 ⟨[[violation]],
    .cons (.restricted hquotes (by decide) not_accepts) .nil, rfl⟩

/-- The script has one violation. -/
theorem analyzeFile_eq : analyzer.analyzeFile machine analyzer.root = .ok [violation] := by
  have hrelative : analyzer.relative analyzer.root = ⟨[]⟩ := by cbv
  have hread : Extractor.script.read source ".ts" = .ok (Script.extract source .typescript) := rfl
  have hgoverns : Governs Matcher.glob analyzer.config.entries ⟨[]⟩ entry := .head selects
  rw [Analyzer.analyzeFile, extractorFor?_root, hrelative,
    Analyzer.governing?_eq_some_iff.2 hgoverns]
  simp only [Machine.readText?_of_resolve? resolve?_root, Analyzer.checkSource,
    hread, extract_source]
  exact congrArg Except.ok checkImports_eq

/-- The report has the one violation. -/
theorem report_eq :
    machine.report (Path.ofString ".") [] none = .ok (analyzer, ⟨[violation], 1⟩) := by
  have hreport : analyzer.analyze machine = .ok ⟨[violation], 1⟩ := by
    rw [Analyzer.analyze_eq discover_eq, List.mapM_cons,
      Analyzer.reportOn_of_ok analyzeFile_eq, List.mapM_nil]
    show Except.ok (Report.sort ⟨[violation], 1⟩) = _
    rw [Report.sort, List.mergeSort_singleton]
  rw [Machine.report, analyzer_eq]
  show ((analyzer.analyze machine).mapError _ >>= _) = _
  rw [hreport]
  rfl

/-- The report cannot be printed for a reader, since the root is no directory to look the script up
in. -/
theorem not_isPrintable : ¬ Report.IsPrintable machine analyzer.root ⟨[violation], 1⟩ .pretty := by
  have hfile : machine.isFile analyzer.root = true := by
    rw [Machine.isFile, resolve?_root]
  intro h
  cases h hfile

end Status

namespace Machine

/-- The same report ends with status zero as text, and with an error beside the source. -/
theorem check_status_root_file :
    ((Status.machine.check (Path.ofString ".") .text [] none).error = none ∧
      (Status.machine.check (Path.ofString ".") .text [] none).status = 0) ∧
    (Status.machine.check (Path.ofString ".") .pretty [] none).error ≠ none ∧
      (Status.machine.check (Path.ofString ".") .pretty [] none).status = 1 := by
  have habs : Status.machine.workingDirectory.isAbsolute = true := by decide +kernel
  have hproper : Status.machine.files.isProper = true := by decide +kernel
  have hmild : ∀ v ∈ [Status.violation], ¬ Status.analyzer.config.failOn ≤ v.severity := by decide
  obtain ⟨herror, -, hzero⟩ := (check_status habs hproper Status.report_eq .text).1 trivial
  exact ⟨⟨herror, hzero hmild⟩,
    (check_status habs hproper Status.report_eq .pretty).2 Status.not_isPrintable⟩

/-- The status depends on the format: the configuration loads, the analysis has a report in which no
violation is grave enough, and beside the source the check fails for want of a source under the
root. -/
theorem status_depends_on_format :
    ∃ r, Status.machine.report (Path.ofString ".") [] none = .ok (Status.analyzer, r) ∧
      (∀ v ∈ r.violations, ¬ Status.analyzer.config.failOn ≤ v.severity) ∧
      (Status.machine.check (Path.ofString ".") .text [] none).status = 0 ∧
      Status.machine.check (Path.ofString ".") .pretty [] none =
        ⟨1, [], some (.unreadable (Path.ofString "/./a.ts/"))⟩ := by
  have hnowhere : Status.machine.readText? (Path.ofString "/./a.ts/") = none := by
    have hjoined : Path.ofString "/./a.ts/" = Status.analyzer.root / pathOfNames [] := by
      decide +kernel
    have hlocate := FileTree.locate?_join_nil Status.locate?_root Status.at?_root
    rw [hjoined, readText?_of_isAbsolute (by decide +kernel), FileTree.readText?,
      FileTree.read?, FileTree.resolve?, hlocate]
    rfl
  have hjoin : Status.analyzer.root / Status.violation.location.file =
      Path.ofString "/./a.ts/" := by decide +kernel
  refine ⟨⟨[Status.violation], 1⟩, Status.report_eq, by decide, ?_, ?_⟩
  · rw [check, Status.report_eq]
    rfl
  · rw [check, Status.report_eq]
    simp only [Report.print, Report.printPretty, Report.drawAll, hjoin, hnowhere]

end Machine

end ImportLint

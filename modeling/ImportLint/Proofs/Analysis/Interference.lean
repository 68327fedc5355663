import ImportLint.Proofs.Analysis.Discovered
import ImportLint.Proofs.Analysis.Source

/-!
# What a file has to do with others

In trees of one project the same files are discovered. What is found in a file depends on that file
alone, so the reports differ at most in the violations of files that differ; and a file that no
entry selects is not even read, so that it makes no difference at all, be it that it cannot be read
or taken apart.
-/

namespace ImportLint

namespace Analyzer

variable {a : Analyzer} {m : Machine} {t : FileTree} {file : Path}

/-- Trees **differ in** a file below the root, given by its relative path, if they differ at its
place. -/
def DiffersIn (a : Analyzer) (m : Machine) (t : FileTree) (file : Path) : Prop :=
  ∃ base names, m.files.locate? a.root = some base ∧ m.files.DiffersAt t (base ++ names) ∧
    file = pathOfNames names

/-! ## One file -/

section

variable (habs : a.root.isAbsolute = true) (h : a.SameProject m t) {base names : List FileName}
  (hlisted : a.IsListedAt m base names file)

include habs h hlisted

/-- A file in which the trees do not differ is read as the same text. -/
theorem readText?_eq_of_not_differsIn (hsame : ¬ a.DiffersIn m t (a.relative file)) :
    m.readText? file = ({ m with files := t } : Machine).readText? file := by
  apply Machine.readText?_eq_of_samePlaces h.places
  intro place hplace hdiffers
  rcases hlisted.place_eq_or_isLinked habs hplace with rfl | hlinked
  · exact hsame ⟨base, names, hlisted.root, hdiffers, hlisted.relative_eq habs⟩
  · exact h.links place hlinked hdiffers

/-- A file whose content does not differ has the same violations. -/
theorem analyzeFile_eq_of_not_differsIn (hsame : ¬ a.DiffersIn m t (a.relative file)) :
    a.analyzeFile m file = a.analyzeFile { m with files := t } file := by
  unfold analyzeFile
  rw [readText?_eq_of_not_differsIn habs h hlisted hsame]

/-- If no entry selects a file in which the trees differ, the file makes no difference. -/
theorem reportOn_eq_of_not_selects (hnone : a.DiffersIn m t (a.relative file) →
      ∀ e ∈ a.config.entries, ¬ e.Selects Matcher.glob (a.relative file)) :
    a.reportOn m file = a.reportOn { m with files := t } file := by
  have hfile : a.analyzeFile m file = a.analyzeFile { m with files := t } file := by
    by_cases hdiffers : a.DiffersIn m t (a.relative file)
    · rw [analyzeFile_of_not_selects (hnone hdiffers), analyzeFile_of_not_selects (hnone hdiffers)]
    · exact analyzeFile_eq_of_not_differsIn habs h hlisted hdiffers
  rw [reportOn, reportOn, hfile]

/-- A file other than the one in which the trees differ has the same violations. -/
theorem violationsOf_eq_of_ne {other : Path} (honly : ∀ p, a.DiffersIn m t p → p = other)
    (hne : a.relative file ≠ other) :
    a.violationsOf m file = a.violationsOf { m with files := t } file := by
  have hsame : ¬ a.DiffersIn m t (a.relative file) := fun hdiffers => hne (honly _ hdiffers)
  unfold violationsOf
  rw [analyzeFile_eq_of_not_differsIn habs h hlisted hsame]

end

/-! ## All files -/

section

variable (habs : a.root.isAbsolute = true) (h : a.SameProject m t)
  (hproper : m.files.isProper = true)
  (hproper' : t.isProper = true)

include habs h hproper hproper'

/-- Files that no entry selects make no difference to an analysis, be it that they cannot be
read. -/
theorem analyze_eq_of_not_selects
    (hnone : ∀ file, a.DiffersIn m t file → ∀ e ∈ a.config.entries, ¬ e.Selects Matcher.glob file) :
    a.analyze { m with files := t } = a.analyze m := by
  have hdiscover : a.discover m = a.discover { m with files := t } :=
    discover_eq_of_sameProject h habs hproper hproper'
  cases hfiles : a.discover m with
  | error e =>
    -- Both analyses fail before they come to a file.
    rw [analyze, analyze, ← hdiscover, hfiles]
    rfl
  | ok files =>
    have hreports : files.mapM (a.reportOn { m with files := t }) = files.mapM (a.reportOn m) := by
      apply mapM_congr_of_mem
      intro f hf
      obtain ⟨base, names, hlisted⟩ := exists_isListedAt_of_discover hproper hfiles hf
      exact (reportOn_eq_of_not_selects habs h hlisted (hnone _)).symm
    rw [analyze_eq hfiles, analyze_eq (hdiscover.symm.trans hfiles), hreports]

/-- If the trees differ in one file only, analyses that succeed agree on the others. -/
theorem filter_violations_eq {file : Path} (honly : ∀ other, a.DiffersIn m t other → other = file)
    {r r' : Report} (hr : a.analyze m = .ok r) (hr' : a.analyze { m with files := t } = .ok r') :
    r'.violations.filter (fun v => v.location.file ≠ file) =
      r.violations.filter (fun v => v.location.file ≠ file) := by
  obtain ⟨files, hfiles, -⟩ := bind_eq_ok_iff.1 hr
  have hfiles' : a.discover { m with files := t } = .ok files := by
    rw [← discover_eq_of_sameProject h habs hproper hproper', hfiles]
  have hothers :
      (files.flatMap fun f => if decide (a.relative f ≠ file) then a.violationsOf m f else []) =
      files.flatMap fun f =>
        if decide (a.relative f ≠ file) then a.violationsOf { m with files := t } f else [] := by
    apply List.flatMap_congr
    intro f hf
    obtain ⟨base, names, hlisted⟩ := exists_isListedAt_of_discover hproper hfiles hf
    split
    · next hne => exact violationsOf_eq_of_ne habs h hlisted honly (of_decide_eq_true hne)
    · rfl
  obtain ⟨-, -, hsort⟩ := (analyze_eq_ok_iff hfiles).1 hr
  obtain ⟨-, -, hsort'⟩ := (analyze_eq_ok_iff hfiles').1 hr'
  -- Filtering keeps a stable sort one, so both are the stable sort of the same violations.
  have hfilter := hsort.filter fun v => v.location.file ≠ file
  have hfilter' := hsort'.filter fun v => v.location.file ≠ file
  rw [filter_flatMap_violationsOf (fun p => p ≠ file), hothers] at hfilter
  rw [filter_flatMap_violationsOf (fun p => p ≠ file)] at hfilter'
  exact hfilter'.unique Report.inOrder_total hfilter

end

/-- **Files do not interfere.** Between trees of one project that differ only in files that no entry
selects, the analysis makes no difference. If they differ only in one file, two analyses that
succeed find the same violations in the others. -/
theorem analyze_independent (habs : a.root.isAbsolute = true) (h : a.SameProject m t)
    (hproper : m.files.isProper = true) (hproper' : t.isProper = true) :
    ((∀ file, a.DiffersIn m t file → ∀ e ∈ a.config.entries, ¬ e.Selects Matcher.glob file) →
      a.analyze { m with files := t } = a.analyze m) ∧
    ∀ file, (∀ other, a.DiffersIn m t other → other = file) → ∀ r r' : Report,
      a.analyze m = .ok r → a.analyze { m with files := t } = .ok r' →
        r'.violations.filter (fun v => v.location.file ≠ file) =
          r.violations.filter (fun v => v.location.file ≠ file) := by
  constructor
  · intro hnone
    exact analyze_eq_of_not_selects habs h hproper hproper' hnone
  · intro file honly r r' hr hr'
    exact filter_violations_eq habs h hproper hproper' honly hr hr'

/-! ## Three files -/

namespace Interference

/-- An analyzer of the root directory with one entry, which selects files of one name. -/
def analyzer : Analyzer where
  root := Path.ofString "/"
  config := { entries := [Source.entry] }
  extractors := [Extractor.lines]
  exclude := []
  failsOnParseError := true

/-- A machine with two files that the entry selects, and one that it does not. -/
def machine (first second third : List UInt8) : Machine where
  files := .directory [(fileName "b.ts", .file third), (fileName "a.txt", .file second),
    (fileName "a.ts", .file first)]
  workingDirectory := Path.ofString "/"
  environment := []

variable {first first' second second' third third' : List UInt8} {place : List FileName}

/-- There is nothing in the tree but its top and the three files. -/
theorem eq_nil_or_file {u : FileTree} (h : (machine first second third).files.at? place = some u) :
    place = [] ∨
      place = [fileName "b.ts"] ∧ u = .file third ∨ place = [fileName "a.txt"] ∧ u = .file second ∨
        place = [fileName "a.ts"] ∧ u = .file first := by
  cases place with
  | nil => exact .inl rfl
  | cons n ns =>
    obtain ⟨ms, v, hms, hfind, hv⟩ := FileTree.at?_cons_eq_some_iff.1 h
    obtain rfl := FileTree.directory.inj hms
    have hmem := FileTree.mem_of_find? hfind
    rw [List.mem_cons, List.mem_cons, List.mem_singleton] at hmem
    -- There is nothing below a file.
    rcases hmem with heq | heq | heq
    all_goals
      obtain ⟨rfl, rfl⟩ := Prod.mk.inj heq
      cases ns with
      | nil => simp_all
      | cons k ks => cases hv

/-- The trees have things of one kind at each place, whatever is in the files. -/
theorem samePlaces :
    (machine first second third).files.SamePlaces (machine first' second' third').files := by
  intro place
  cases place with
  | nil => rfl
  | cons n ns =>
    rw [machine, machine, FileTree.at?_cons_directory, FileTree.at?_cons_directory]
    simp only [FileTree.find?, List.find?_cons]
    split
    · cases ns <;> rfl
    · split
      · cases ns <;> rfl
      · split
        · cases ns <;> rfl
        · rfl

/-- The trees differ at most at the files. -/
theorem of_differsAt
    (h : (machine first second third).files.DiffersAt (machine first' second' third').files place) :
    place = [fileName "b.ts"] ∧ third ≠ third' ∨ place = [fileName "a.txt"] ∧ second ≠ second' ∨
      place = [fileName "a.ts"] ∧ first ≠ first' := by
  obtain ⟨content, other, hcontent, hother, hne⟩ := h
  rcases eq_nil_or_file hcontent with rfl | ⟨rfl, hu⟩ | ⟨rfl, hu⟩ | ⟨rfl, hu⟩
  · cases hcontent
  all_goals
    obtain rfl := FileTree.file.inj hu
    obtain rfl := FileTree.file.inj (Option.some.inj hother)
    simp [hne]

/-- The root leads to the top. -/
theorem locate?_root : (machine first second third).files.locate? analyzer.root = some [] := by
  cbv

/-- The files in which two such machines differ. -/
theorem of_differsIn {file : Path}
    (h : analyzer.DiffersIn (machine first second third)
      (machine first' second' third').files file) :
    file = Path.ofString "b.ts" ∧ third ≠ third' ∨ file = Path.ofString "a.txt" ∧ second ≠ second' ∨
      file = Path.ofString "a.ts" ∧ first ≠ first' := by
  obtain ⟨base, names, hbase, hdiffers, rfl⟩ := h
  obtain rfl := Option.some.inj (locate?_root.symm.trans hbase)
  rw [List.nil_append] at hdiffers
  rcases of_differsAt hdiffers with ⟨rfl, hne⟩ | ⟨rfl, hne⟩ | ⟨rfl, hne⟩
  · exact .inl ⟨by decide +kernel, hne⟩
  · exact .inr (.inl ⟨by decide +kernel, hne⟩)
  · exact .inr (.inr ⟨by decide +kernel, hne⟩)

/-- No name is that of an ignore file. -/
theorem allNames_files (s : RuleSource) :
    (machine first second third).files.allNames (!s.file.contains ·) = true := by
  cases s <;> rfl

/-- There are no ignore files and no links. -/
theorem sameProject :
    analyzer.SameProject (machine first second third) (machine first' second' third').files where
  places := samePlaces
  ignoreFiles place hplace := by
    cases hplace with
    | ofDirectory hbase hdirectory hcounts hplace =>
      rw [RuleSource.follow_eq_none_of_allNames (allNames_files _)] at hplace
      cases hplace
    | ofSettings hp hplace => cases hp
    | ofUser hp hplace => cases hp
  links place hplace := by
    obtain ⟨here, n, target, hlink, -⟩ := hplace
    rcases eq_nil_or_file hlink with hnil | ⟨-, hu⟩ | ⟨-, hu⟩ | ⟨-, hu⟩
    · cases here <;> cases hnil
    all_goals cases hu

/-- The names of the files are proper. -/
theorem isProper_files : (machine first second third).files.isProper = true := by
  simp only [machine, FileTree.isProper, FileTree.areProper, List.map_cons, List.map_nil]
  cbv

/-- The three files are discovered, whatever is in them. -/
theorem discover_eq : analyzer.discover (machine first second third) =
    .ok [Path.ofString "/a.ts", Path.ofString "/a.txt", Path.ofString "/b.ts"] := by
  have hignore := Machine.hasNoIgnoreFiles_of_allNames (@allNames_files first second third) rfl []
  have hlinks : (machine first second third).files.HasNoLinks := .cons (FileTree.hasNoLinks_file _)
    (.cons (FileTree.hasNoLinks_file _)
      (.cons (FileTree.hasNoLinks_file _) FileTree.hasNoLinks_nil))
  have hplaces : (machine first second third).files.filePlaces =
      [[fileName "b.ts"], [fileName "a.txt"], [fileName "a.ts"]] := rfl
  exact discover_eq_of_filePlaces rfl locate?_root rfl isProper_files hignore rfl hlinks hplaces
    (by decide +kernel) (by decide +kernel) (by decide +kernel)

section

variable (habove : a.root = analyzer.root) (hextractors : a.extractors = analyzer.extractors)

include habove hextractors

/-- A file of the extractor of lines has violations, or none, and never fails. -/
theorem exists_analyzeFile_eq_ok {name : String} (e : String) (source : List Char)
    (hname : (Path.ofString name).components = [.root, .named (fileName (name.drop 1).toString)])
    (he : extensionOf? (Path.ofString name) = some e) (hsupported : e ∈ Extractor.lines.extensions)
    (hsource : m.resolve? (Path.ofString name) = some (.file (Utf8.encode source))) :
    ∃ vs, a.analyzeFile m (Path.ofString name) = .ok vs := by
  have hroot : analyzer.root.components = [.root] := by decide +kernel
  have hbelow : a.IsBelow (Path.ofString name) := ⟨_, _, by rw [hname, habove, hroot]; rfl⟩
  have hx : a.extractorFor? (Path.ofString name) = some (Extractor.lines, e) :=
    extractorFor?_eq_some_iff.2 ⟨he, Reads.head hextractors hsupported⟩
  exact ⟨_, hbelow.analyzeFile_of_read hx hsource rfl⟩

/-- An analysis of texts succeeds, whatever the entries are. -/
theorem exists_report_of_discover {source source' source'' : List Char}
    (hdiscover :
      a.discover (machine (Utf8.encode source) (Utf8.encode source') (Utf8.encode source'')) =
        analyzer.discover
          (machine (Utf8.encode source) (Utf8.encode source') (Utf8.encode source''))) :
    ∃ r, a.analyze (machine (Utf8.encode source) (Utf8.encode source')
      (Utf8.encode source'')) = .ok r := by
  have hok : ∀ f ∈ [Path.ofString "/a.ts", Path.ofString "/a.txt", Path.ofString "/b.ts"], ∃ vs,
      a.analyzeFile (machine (Utf8.encode source) (Utf8.encode source') (Utf8.encode source'')) f =
        .ok vs := by
    rw [List.forall_mem_cons, List.forall_mem_cons, List.forall_mem_singleton]
    refine ⟨?_, ?_, ?_⟩
    · exact exists_analyzeFile_eq_ok habove hextractors ".ts" source
        (by decide +kernel) (by decide +kernel) (.tail _ (.head _)) (by cbv)
    · exact exists_analyzeFile_eq_ok habove hextractors ".txt" source'
        (by decide +kernel) (by decide +kernel) (.head _) (by cbv)
    · exact exists_analyzeFile_eq_ok habove hextractors ".ts" source''
        (by decide +kernel) (by decide +kernel) (.tail _ (.head _)) (by cbv)
  obtain ⟨r, hr, -⟩ := analyze_eq_ok (hdiscover.trans discover_eq) fun f hf e he => by
    obtain ⟨vs, hvs⟩ := hok f hf
    cases hvs.symm.trans he.1
  exact ⟨r, hr⟩

end

/-- There is a report on every three texts. -/
theorem exists_report (source source' source'' : List Char) : ∃ r,
    analyzer.analyze (machine (Utf8.encode source) (Utf8.encode source') (Utf8.encode source'')) =
      .ok r :=
  exists_report_of_discover rfl rfl rfl

end Interference

/-- Bytes that are no text make no difference in a file that is not selected. Where one of two
selected files changes, the violations in the other stay what they are. -/
theorem analyze_independent_three :
    Interference.analyzer.analyze
      (Interference.machine (Utf8.encode "x".toList) (Utf8.encode "y".toList) [0xff]) =
      Interference.analyzer.analyze
        (Interference.machine (Utf8.encode "x".toList) (Utf8.encode "y".toList) []) ∧
    ∃ r r', Interference.analyzer.analyze
        (Interference.machine (Utf8.encode "x".toList) (Utf8.encode "y".toList) []) = .ok r ∧
      Interference.analyzer.analyze
        (Interference.machine (Utf8.encode "x".toList) (Utf8.encode "./z".toList) []) = .ok r' ∧
      r'.violations.filter (fun v => v.location.file ≠ Path.ofString "a.txt") =
        r.violations.filter (fun v => v.location.file ≠ Path.ofString "a.txt") := by
  constructor
  · refine (analyze_independent rfl Interference.sameProject Interference.isProper_files
      (@Interference.isProper_files (Utf8.encode "x".toList) (Utf8.encode "y".toList) [0xff])).1 ?_
    intro file hdiffers
    rcases Interference.of_differsIn hdiffers with ⟨rfl, -⟩ | ⟨-, hne⟩ | ⟨-, hne⟩
    · exact List.forall_mem_singleton.2 Source.not_selects
    · exact absurd rfl hne
    · exact absurd rfl hne
  · obtain ⟨r, hr⟩ := Interference.exists_report "x".toList "y".toList []
    obtain ⟨r', hr'⟩ := Interference.exists_report "x".toList "./z".toList []
    refine ⟨r, r', hr, hr', ?_⟩
    refine (analyze_independent rfl Interference.sameProject Interference.isProper_files
      Interference.isProper_files).2 _ ?_ r r' hr hr'
    intro file hdiffers
    rcases Interference.of_differsIn hdiffers with ⟨-, hne⟩ | ⟨rfl, -⟩ | ⟨-, hne⟩
    · exact absurd rfl hne
    · rfl
    · exact absurd rfl hne

end Analyzer

end ImportLint

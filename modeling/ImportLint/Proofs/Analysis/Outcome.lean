import ImportLint.Proofs.Analysis.Discovery
import ImportLint.Proofs.Analysis.Projects
import ImportLint.Proofs.Analysis.Source
import ImportLint.Proofs.Report.Sort
import ImportLint.Proofs.Traverse
import Mathlib.Algebra.Ring.Nat

/-!
# The outcome of an analysis

A file fails an analysis if it cannot be read, or if it cannot be parsed and that is to count. The
least file that does decides the outcome. Where there is none, the report has the violations of all
files in order, and counts the files that could be parsed.
-/

namespace ImportLint

/-! ## Adding up reports -/

namespace Report

/-- The violations of reports together are those of each, in order. -/
theorem violations_foldr (reports : List Report) :
    (reports.foldr (· ++ ·) ∅).violations = reports.flatMap violations := by
  induction reports with
  | nil => rfl
  | cons r reports ih => rw [List.foldr_cons, violations_append, ih, List.flatMap_cons]

/-- The files counted by reports together are those of each. -/
theorem filesChecked_foldr (reports : List Report) :
    (reports.foldr (· ++ ·) ∅).filesChecked = (reports.map filesChecked).sum := by
  induction reports with
  | nil => rfl
  | cons r reports ih => rw [List.foldr_cons, filesChecked_append, ih, List.map_cons, List.sum_cons]

end Report

namespace Analyzer

variable {a : Analyzer} {m : Machine} {file : Path}

/-! ## One file -/

/-- A file **fails** an analysis with an error: it cannot be read, or it cannot be parsed and that
is to count. -/
def FailsWith (a : Analyzer) (m : Machine) (file : Path) (e : AnalysisError) : Prop :=
  a.analyzeFile m file = .error e ∧
    (e = .unreadable ∨ (∃ p cause, e = .unparsable p cause) ∧ a.failsOnParseError = true)

/-- Whether a file cannot be parsed. -/
def isUnparsable (a : Analyzer) (m : Machine) (file : Path) : Bool :=
  match a.analyzeFile m file with
  | .error (.unparsable _ _) => true
  | _ => false

/-- The violations of a file, none if it cannot be checked. -/
def violationsOf (a : Analyzer) (m : Machine) (file : Path) : List Violation :=
  match a.analyzeFile m file with
  | .ok violations => violations
  | .error _ => []

/-- There are two reasons why a file cannot be checked. -/
theorem error_of_analyzeFile {e : AnalysisError} (h : a.analyzeFile m file = .error e) :
    e = .unreadable ∨ ∃ p cause, e = .unparsable p cause := by
  unfold analyzeFile at h
  split at h
  · cases h
  · split at h
    · cases h
    · split at h
      · unfold checkSource at h
        split at h
        · cases h
        · exact .inr ⟨_, _, (Except.error.inj h).symm⟩
      · exact .inl (Except.error.inj h).symm

/-- A file with violations is reported with them, as one file. -/
theorem reportOn_of_ok {violations : List Violation} (h : a.analyzeFile m file = .ok violations) :
    a.reportOn m file = .ok ⟨violations, 1⟩ := by
  rw [reportOn, h]

/-- A file that cannot be read is an error. -/
theorem reportOn_of_unreadable (h : a.analyzeFile m file = .error .unreadable) :
    a.reportOn m file = .error .unreadable := by
  rw [reportOn, h]

/-- A file that cannot be parsed is an error if the analyzer fails for it, and is left out if not.
-/
theorem reportOn_of_unparsable {p : Path} {cause : ExtractError}
    (h : a.analyzeFile m file = .error (.unparsable p cause)) :
    a.reportOn m file = if a.failsOnParseError then .error (.unparsable p cause) else .ok ∅ := by
  rw [reportOn, h]

/-- Reporting on a file fails exactly as the file does. -/
theorem reportOn_eq_error_iff {e : AnalysisError} :
    a.reportOn m file = .error e ↔ a.FailsWith m file e := by
  unfold FailsWith
  cases h : a.analyzeFile m file with
  | ok violations => simp [reportOn_of_ok h]
  | error cause =>
    rw [Except.error.injEq]
    rcases error_of_analyzeFile h with rfl | ⟨p, cause, rfl⟩
    · rw [reportOn_of_unreadable h, Except.error.injEq]
      exact ⟨fun he => ⟨he, .inl he.symm⟩, And.left⟩
    · rw [reportOn_of_unparsable h]
      -- A file that cannot be parsed counts as an error only if that is asked for.
      cases a.failsOnParseError with
      | false =>
        constructor
        · intro h
          cases h
        · rintro ⟨rfl, hreason⟩
          rcases hreason with h | ⟨-, h⟩ <;> cases h
      | true =>
        rw [if_pos rfl, Except.error.injEq]
        exact ⟨fun he => ⟨he, .inr ⟨⟨p, cause, he.symm⟩, rfl⟩⟩, And.left⟩

/-- A file that does not fail the analysis gives its violations, and counts if it can be parsed. -/
theorem reportOn_eq_ok (h : ∀ e, ¬ a.FailsWith m file e) : a.reportOn m file =
    .ok ⟨a.violationsOf m file, if a.isUnparsable m file then 0 else 1⟩ := by
  unfold violationsOf isUnparsable
  cases hfile : a.analyzeFile m file with
  | ok violations => exact reportOn_of_ok hfile
  | error cause =>
    rcases error_of_analyzeFile hfile with rfl | ⟨p, cause, rfl⟩
    · exact absurd (reportOn_eq_error_iff.1 (reportOn_of_unreadable hfile)) (h _)
    · -- The failure does not count, or else the file would fail the analysis.
      have hreport := reportOn_of_unparsable hfile
      split at hreport
      · exact absurd (reportOn_eq_error_iff.1 hreport) (h _)
      · exact hreport

/-! ## All files -/

/-- The report on the files discovered is the sum of the reports on each, sorted. -/
theorem analyze_eq {files : List Path} (hfiles : a.discover m = .ok files) : a.analyze m =
    (files.mapM (a.reportOn m)).map fun reports => (reports.foldr (· ++ ·) ∅).sort := by
  unfold analyze
  rw [hfiles]
  rfl

/-- Each file is either counted or cannot be parsed. -/
theorem sum_add_countP (files : List Path) :
    (files.map fun file => if a.isUnparsable m file then 0 else 1).sum +
      files.countP (a.isUnparsable m) =
      files.length := by
  induction files with
  | nil => rfl
  | cons file files ih =>
    rw [List.map_cons, List.sum_cons, List.countP_cons, List.length_cons]
    split <;> omega

/-- The reports on files that do not fail the analysis. -/
theorem mapM_reportOn_eq_ok {files : List Path} (h : ∀ f ∈ files, ∀ e, ¬ a.FailsWith m f e) :
    files.mapM (a.reportOn m) =
      .ok (files.map fun f => ⟨a.violationsOf m f, if a.isUnparsable m f then 0 else 1⟩) := by
  rw [mapM_eq_ok_iff, List.forall₂_map_right_iff, List.forall₂_same]
  exact fun f hf => reportOn_eq_ok (h f hf)

/-- The report on files that do not fail the analysis. -/
theorem analyze_eq_ok {files : List Path} (hfiles : a.discover m = .ok files)
    (h : ∀ f ∈ files, ∀ e, ¬ a.FailsWith m f e) : ∃ r, a.analyze m = .ok r ∧
      r.filesChecked + files.countP (a.isUnparsable m) = files.length ∧
        IsStableSort Report.inOrder (files.flatMap (a.violationsOf m)) r.violations := by
  rw [analyze_eq hfiles, mapM_reportOn_eq_ok h]
  refine ⟨_, rfl, ?_, ?_⟩
  · rw [Report.filesChecked_sort, Report.filesChecked_foldr, List.map_map]
    exact sum_add_countP files
  · rw [← List.flatMap_map (fun f => ⟨a.violationsOf m f, if a.isUnparsable m f then 0 else 1⟩)
      Report.violations, ← Report.violations_foldr]
    exact Report.isStableSort_sort _

section Discovered

variable {files : List Path} (hfiles : a.discover m = .ok files)

include hfiles

/-- An analysis succeeds where no file fails it. The report is the one on such files. -/
theorem analyze_eq_ok_iff {r : Report} : a.analyze m = .ok r ↔
    (∀ f ∈ files, ∀ e, ¬ a.FailsWith m f e) ∧
    r.filesChecked + files.countP (a.isUnparsable m) = files.length ∧
      IsStableSort Report.inOrder (files.flatMap (a.violationsOf m)) r.violations := by
  constructor
  · intro h
    have hnone : ∀ f ∈ files, ∀ e, ¬ a.FailsWith m f e := by
      intro f hf e he
      rw [analyze_eq hfiles, map_eq_ok_iff] at h
      obtain ⟨reports, hreports, -⟩ := h
      obtain ⟨r, hr⟩ := exists_mapM_eq_ok_iff.1 ⟨reports, hreports⟩ f hf
      rw [reportOn_eq_error_iff.2 he] at hr
      cases hr
    obtain ⟨r', hr', hchecked, hsort⟩ := analyze_eq_ok hfiles hnone
    obtain rfl := Except.ok.inj (h.symm.trans hr')
    exact ⟨hnone, hchecked, hsort⟩
  · rintro ⟨hnone, hchecked, hsort⟩
    obtain ⟨r', hr', hchecked', hsort'⟩ := analyze_eq_ok hfiles hnone
    -- Both reports have the one stable sort and the one count that there is.
    have hviolations : r.violations = r'.violations :=
      IsStableSort.unique Report.inOrder_total hsort hsort'
    have hcount : r.filesChecked = r'.filesChecked := by omega
    rw [hr']
    obtain ⟨violations, checked⟩ := r
    subst hviolations hcount
    rfl

/-- An analysis fails with the error of the least file that fails it. -/
theorem analyze_eq_error_iff {e : AnalysisError} :
    a.analyze m = .error e ↔ ∃ before file after, files = before ++ file :: after ∧
      (∀ f ∈ before, ∀ e', ¬ a.FailsWith m f e') ∧ a.FailsWith m file e := by
  have hmap : a.analyze m = .error e ↔ files.mapM (a.reportOn m) = .error e := by
    rw [analyze_eq hfiles]
    cases files.mapM (a.reportOn m) <;> simp [Except.map]
  have hok (f : Path) : (∃ r, a.reportOn m f = .ok r) ↔ ∀ e', ¬ a.FailsWith m f e' := by
    simp only [← reportOn_eq_error_iff]
    cases a.reportOn m f <;> simp
  rw [hmap, mapM_eq_error_iff]
  simp only [hok, reportOn_eq_error_iff]

end Discovered

/-- **The outcome of an analysis** that discovers files. They are in strict order. If a file fails
the analysis, the error is that of the least file that does. Otherwise the report counts the files
that can be parsed, and has the violations of all files in order. How directories list their members
does not matter. -/
theorem analyze_outcome (habs : a.root.isAbsolute = true) (hproper : m.files.isProper = true)
    {files : List Path} (hfiles : a.discover m = .ok files) :
    files.Pairwise (fun p q => p.compare q = .lt) ∧
    (∀ e, a.analyze m = .error e ↔ ∃ before file after, files = before ++ file :: after ∧
      (∀ f ∈ before, ∀ e', ¬ a.FailsWith m f e') ∧ a.FailsWith m file e) ∧
    (∀ r, a.analyze m = .ok r ↔ (∀ f ∈ files, ∀ e, ¬ a.FailsWith m f e) ∧
      r.filesChecked + files.countP (a.isUnparsable m) = files.length ∧
        IsStableSort Report.inOrder (files.flatMap (a.violationsOf m)) r.violations) ∧
    ∀ t : FileTree, t.isProper = true → m.files.SameFiles t →
      a.analyze { m with files := t } = a.analyze m := by
  refine ⟨pairwise_lt_of_discover habs hproper hfiles, fun e => analyze_eq_error_iff hfiles,
    fun r => analyze_eq_ok_iff hfiles, fun t ht hsame => ?_⟩
  have hreports : a.reportOn m = a.reportOn { m with files := t } :=
    funext (reportOn_eq_of_sameFiles hsame)
  have hdiscover := discover_eq_of_sameFiles hsame habs hproper ht
  rw [analyze_eq hfiles, analyze_eq (hdiscover.symm.trans hfiles), hreports]

/-- Files that cannot be read, one that cannot be parsed, and one that can. -/
def Outcome.members : List (FileName × FileTree) :=
  [(fileName "d.txt", .file [0xff]), (fileName "c.txt", .file [0xff]), (fileName "b.txt", .file []),
    (fileName "a.txt", .file [0x0a])]

/-- A machine with nothing but some members of its root directory. -/
def Outcome.machine (members : List (FileName × FileTree)) : Machine where
  files := .directory members
  workingDirectory := Path.ofString "/"
  environment := []

/-- An extractor of lines that does not read what is empty. -/
def Outcome.extractor : Extractor :=
  ⟨"none", [".txt"], fun source extension =>
    if source.isEmpty then none else Extractor.lines.extract source extension⟩

/-- An entry that governs all files. -/
def Outcome.entry : Entry :=
  ⟨⟨"**", [⟨"**".toList, [.anySegments]⟩]⟩, [⟨"y", [⟨['y'], [.char 'y']⟩]⟩], none⟩

/-- An analyzer with one entry, which governs all files, and an extractor that does not read empty
ones. -/
def Outcome.analyzer : Analyzer where
  root := Path.ofString "/"
  config := { entries := [Outcome.entry] }
  extractors := [Outcome.extractor]
  exclude := []
  failsOnParseError := false

/-- There are no links among the members. -/
theorem Outcome.hasNoLinks : (Outcome.machine Outcome.members).files.HasNoLinks :=
  .cons (FileTree.hasNoLinks_file _)
    (.cons (FileTree.hasNoLinks_file _) (.cons (FileTree.hasNoLinks_file _)
    (.cons (FileTree.hasNoLinks_file _) FileTree.hasNoLinks_nil)))

/-- The entry governs each of the files. -/
theorem Outcome.governs {file : Path} (h : file.normalize ∈
    [['a', '.', 't', 'x', 't'], ['b', '.', 't', 'x', 't'], ['c', '.', 't', 'x', 't']]) :
    Governs Matcher.glob Outcome.analyzer.config.entries file Outcome.entry := by
  refine .head ?_
  rw [entry, Entry.selects_iff_of_directory? rfl]
  simp only [List.mem_cons, List.not_mem_nil, or_false] at h
  rcases h with h | h | h <;> rw [h] <;> cbv

/-- Each of the files is checked under the entry, as far as its content is text. -/
theorem Outcome.analyzeFile_eq {name : String} (h : name ∈ ["/a.txt", "/b.txt", "/c.txt"])
    {content : List UInt8}
    (hresolve : (Outcome.machine Outcome.members).resolve? (Path.ofString name) =
      some (.file content)) :
    Outcome.analyzer.analyzeFile (Outcome.machine Outcome.members) (Path.ofString name) =
      match Utf8.decode? content with
      | some source =>
        Outcome.analyzer.checkSource (Outcome.analyzer.relative (Path.ofString name)) source
          (Outcome.extractor, ".txt") Outcome.entry
      | none => .error .unreadable := by
  have hextension : ∀ n ∈ ["/a.txt", "/b.txt", "/c.txt"],
      extensionOf? (Path.ofString n) = some ".txt" := by
    decide +kernel
  have hnormalize : ∀ n ∈ ["/a.txt", "/b.txt", "/c.txt"],
      (Outcome.analyzer.relative (Path.ofString n)).normalize ∈
        [['a', '.', 't', 'x', 't'], ['b', '.', 't', 'x', 't'], ['c', '.', 't', 'x', 't']] := by
    decide +kernel
  have hx : Outcome.analyzer.extractorFor? (Path.ofString name) =
      some (Outcome.extractor, ".txt") :=
    extractorFor?_eq_some_iff.2 ⟨hextension name h, .head rfl (.head _)⟩
  have hentry := governing?_eq_some_iff.2 (Outcome.governs (hnormalize name h))
  have hread := Machine.readText?_eq_decode? hresolve
  cases hdecode : Utf8.decode? content <;> simp only [analyzeFile, hx, hentry, hread, hdecode]

/-- The least file that cannot be read decides, in whatever order the files are listed. -/
theorem analyze_outcome_unreadable :
    Outcome.analyzer.analyze (Outcome.machine Outcome.members) = .error .unreadable ∧
      Outcome.analyzer.analyze (Outcome.machine Outcome.members.reverse) = .error .unreadable := by
  have hproper : (FileTree.directory Outcome.members).isProper = true := by decide +kernel
  have hbase : (Outcome.machine Outcome.members).files.locate? Outcome.analyzer.root = some [] := by
    cbv
  have hignore := Machine.hasNoIgnoreFiles_of_allNames (m := Outcome.machine Outcome.members)
    (fun s => by cases s <;> decide +kernel) rfl []
  have hfiles : Outcome.analyzer.discover (Outcome.machine Outcome.members) =
      .ok [Path.ofString "/a.txt", Path.ofString "/b.txt", Path.ofString "/c.txt",
        Path.ofString "/d.txt"] :=
    discover_eq_of_filePlaces rfl hbase rfl hproper hignore rfl Outcome.hasNoLinks
      rfl (by decide +kernel)
      (by decide +kernel) (by decide +kernel)
  obtain ⟨-, herror, -, hsame⟩ := analyze_outcome rfl hproper hfiles
  have ha :
      Outcome.analyzer.analyzeFile (Outcome.machine Outcome.members) (Path.ofString "/a.txt") =
      .ok [] := by
    have hsource : Utf8.decode? [0x0a] = some ['\n'] := Utf8.decode?_eq_some_iff.2 rfl
    rw [Outcome.analyzeFile_eq (.head _) (by cbv), hsource]
    rfl
  have hb :
      Outcome.analyzer.analyzeFile (Outcome.machine Outcome.members) (Path.ofString "/b.txt") =
      .error (.unparsable (Path.ofString "b.txt") (.parse "none")) := by
    have hsource : Utf8.decode? [] = some [] := Utf8.decode?_eq_some_iff.2 rfl
    rw [Outcome.analyzeFile_eq (.tail _ (.head _)) (by cbv), hsource]
    rfl
  have hc :
      Outcome.analyzer.analyzeFile (Outcome.machine Outcome.members) (Path.ofString "/c.txt") =
      .error .unreadable := by
    have hnone : Utf8.decode? [0xff] = none := by cbv
    rw [Outcome.analyzeFile_eq (.tail _ (.tail _ (.head _))) (by cbv), hnone]
  -- The second file comes to no tree, which is not to count, so the third is the first to fail.
  have hbefore : ∀ f ∈ [Path.ofString "/a.txt", Path.ofString "/b.txt"],
      ∀ e, ¬ Outcome.analyzer.FailsWith (Outcome.machine Outcome.members) f e := by
    rintro f hf e ⟨herr, hreason⟩
    rcases List.mem_pair.1 hf with rfl | rfl
    · rw [ha] at herr
      cases herr
    · rw [hb] at herr
      obtain rfl := Except.error.inj herr
      rcases hreason with h | ⟨-, h⟩ <;> cases h
  have hfirst := (herror .unreadable).2 ⟨_, _, [Path.ofString "/d.txt"], rfl, hbefore, hc, .inl rfl⟩
  refine ⟨hfirst, ?_⟩
  rw [← hfirst]
  -- The members in another order are the same files.
  exact hsame (.directory Outcome.members.reverse) (by decide +kernel)
    (FileTree.sameFiles_of_perm (FileTree.isProper_directory_iff.1 hproper).1
      (List.reverse_perm _).symm)

end Analyzer

end ImportLint

import ImportLint.Analysis.Discovery
import ImportLint.Report.Basic
import ImportLint.Rule.Check

/-!
# Running an analysis

A file is checked by the rule under its path relative to the root. A file that no target selects is
neither read nor parsed. An analysis checks all files that it discovers: the first that cannot be
read fails it; one that cannot be parsed does so only where that is asked for, and is not counted
otherwise.
-/

namespace ImportLint.Analyzer

/-- The entry that governs a file. -/
def governing? (a : Analyzer) (file : Path) : Option Entry :=
  Id.run (select Matcher.glob a.config.entries file)

/-- The violations of a source text in a file that an entry governs. -/
def checkSource (a : Analyzer) (file : Path) (source : List Char)
    (x : Extractor × String) (e : Entry) : Except AnalysisError (List Violation) :=
  match x.1.read source x.2 with
  | .ok extraction =>
    .ok (Id.run (checkImports Matcher.glob a.config.severity e file extraction.imports))
  | .error cause => .error (.unparsable file cause)

/-- The violations of a source text, given its path relative to the root. -/
def analyzeSource (a : Analyzer) (file : Path) (source : List Char) :
    Except AnalysisError (List Violation) :=
  match a.extractorFor? file with
  | none => .error (.unsupported file)
  | some x =>
    match a.governing? file with
    | none => .ok []
    | some e => a.checkSource file source x e

/-- The violations of a file below the root. There are none in a file that no extractor reads. -/
def analyzeFile (a : Analyzer) (m : Machine) (file : Path) :
    Except AnalysisError (List Violation) :=
  match a.extractorFor? file with
  | none => .ok []
  | some x =>
    match a.governing? (a.relative file) with
    | none => .ok []
    | some e =>
      match m.readText? file with
      | some source => a.checkSource (a.relative file) source x e
      | none => .error .unreadable

/-- The report on one file. -/
def reportOn (a : Analyzer) (m : Machine) (file : Path) : Except AnalysisError Report :=
  match a.analyzeFile m file with
  | .ok violations => .ok ⟨violations, 1⟩
  | .error (.unparsable p cause) =>
    if a.failsOnParseError then .error (.unparsable p cause) else .ok ∅
  | .error e => .error e

/-- The report on all files. -/
def analyze (a : Analyzer) (m : Machine) : Except AnalysisError Report := do
  let files ← a.discover m
  let reports ← files.mapM (a.reportOn m)
  pure (reports.foldr (· ++ ·) ∅).sort

end ImportLint.Analyzer

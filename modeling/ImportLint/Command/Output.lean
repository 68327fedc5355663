import ImportLint.Analysis.Run
import ImportLint.Command.Request
import ImportLint.Json.Writer
import ImportLint.Report.Record
import ImportLint.Report.Snippet

/-!
# Printed reports

A report as the lines that the command prints. All forms but the compact one and JSON end with a
summary; printing as JSON or beside the source can fail, the latter after part of the output.
-/

namespace ImportLint

/-- Why a command fails. -/
inductive CommandError where
  /-- There is no configuration. -/
  | noConfig
  /-- A configuration file gives no configuration. -/
  | badConfig (file : Path)
  /-- The configuration does not make an analyzer. -/
  | badAnalyzer
  | analysisFailed
  /-- The file that is to be written exists. -/
  | configExists (file : Path)
  /-- The file that is to be written cannot be. -/
  | unwritable
  /-- The source of a violation cannot be read. -/
  | unreadable (file : Path)
  /-- A path in the report is no text. -/
  | notText
  deriving DecidableEq, Repr

/-- The wording of an error. -/
def CommandError.message : CommandError → String
  | noConfig => "No import-patterns.toml found. Run \x60import-patterns init\x60 to create one."
  | badConfig file => s!"Failed to load config: {file.display}"
  | badAnalyzer => "Failed to build analyzer"
  | analysisFailed => "Analysis failed"
  | configExists file =>
    s!"Configuration file already exists at {file.display}. Use --force to overwrite."
  | unwritable => "Is a directory (os error 21)"
  | unreadable file => s!"Failed to read {file.display}"
  | notText => "path contains invalid UTF-8 characters"

/-- The lines that have been printed, and the error that stopped the printing, if one did. -/
structure Printed where
  lines : List String
  error : Option CommandError := none
  deriving DecidableEq, Repr

/-- A text in a colour of the terminal. -/
def coloured (colour : String) (s : String) : String := s!"\x1b[{colour}m{s}\x1b[0m"

/-- The colour of a severity. -/
def Severity.colour : Severity → String
  | error => "31"
  | warning => "33"
  | info => "34"

namespace Report

/-- The line that sums a report up. -/
def summary (r : Report) : String :=
  let c := r.counts
  let colour := if 0 < c.errors then "31" else if 0 < c.warnings then "33" else "32"
  let errors := Decimal.numeral c.errors
  let warnings := Decimal.numeral c.warnings
  let infos := Decimal.numeral c.infos
  let files := Decimal.numeral r.filesChecked
  coloured colour
    s!"Found {errors} error(s), {warnings} warning(s), {infos} info(s) in {files} file(s)"

/-- A report as paragraphs. -/
def printText (r : Report) : Printed :=
  let paragraph (v : Violation) := v.paragraph (fun s => coloured s.colour s.word) ++ [""]
  ⟨r.violations.flatMap paragraph ++ [r.summary], none⟩

/-- A report as JSON. -/
def printJson (r : Report) : Printed :=
  match r.toDocument? with
  | some d => ⟨[String.ofList (Json.write (.lines 0) d)], none⟩
  | none => ⟨[], some .notText⟩

/-- A report with a line for each violation. -/
def printCompact (r : Report) : Printed := ⟨r.violations.map Violation.display, none⟩

/-- Violations beside their sources below a directory, up to the first source that cannot be
read. -/
def drawAll (m : Machine) (root : Path) : List Violation → Printed
  | [] => ⟨[], none⟩
  | v :: vs =>
    let file := root / v.location.file
    match m.readText? file with
    | none => ⟨[], some (.unreadable file)⟩
    | some source =>
      let rest := drawAll m root vs
      ⟨v.diagnostic.draw v.location.cite source ++ [""] ++ rest.lines, rest.error⟩

/-- A report with each violation beside its source. -/
def printPretty (m : Machine) (root : Path) (r : Report) : Printed :=
  let drawn := drawAll m root r.violations
  match drawn.error with
  | none => ⟨drawn.lines ++ [r.summary], none⟩
  | some _ => drawn

/-- A report in an output format. -/
def print (m : Machine) (root : Path) (r : Report) : OutputFormat → Printed
  | .text => r.printText
  | .json => r.printJson
  | .compact => r.printCompact
  | .pretty => r.printPretty m root

end Report

end ImportLint

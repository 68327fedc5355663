import ImportLint.Command.ConfigSource
import ImportLint.Command.Template

/-!
# Running the command

What a run prints, how it ends, and what it leaves behind. It ends with status 2 if the arguments
make no sense, and with status 1 if it fails or finds a violation that is grave enough for its
configuration.
-/

namespace ImportLint

/-- How a run ends. -/
structure Outcome where
  status : Nat
  printed : List String
  error : Option CommandError
  deriving DecidableEq, Repr

namespace Outcome

/-- A run that fails. -/
def failed (e : CommandError) : Outcome := ⟨1, [], some e⟩

/-- A run that does what it is to do. -/
def done (lines : List String) : Outcome := ⟨0, lines, none⟩

end Outcome

namespace Machine

/-- The analyzer for checking a directory. -/
def analyzer (m : Machine) (directory : Path) (excludes : List String) (choice : Option Path) :
    Except CommandError Analyzer := do
  match ConfigSource.find? m directory choice with
  | none => throw .noConfig
  | some source =>
    let config ← source.load m
    (Analyzer.build m.workingDirectory (source.base directory) config excludes [] false).mapError
      fun _ => .badAnalyzer

/-- Check a directory: the analyzer that does so, and its report. -/
def report (m : Machine) (directory : Path) (excludes : List String) (choice : Option Path) :
    Except CommandError (Analyzer × Report) := do
  let a ← m.analyzer directory excludes choice
  let report ← (a.analyze m).mapError fun _ => .analysisFailed
  pure (a, report)

/-- Check a directory and print the report. -/
def check (m : Machine) (directory : Path) (format : OutputFormat) (excludes : List String)
    (choice : Option Path) : Outcome :=
  match m.report directory excludes choice with
  | .error e => .failed e
  | .ok (a, report) =>
    let printed := report.print m a.root format
    match printed.error with
    | some e => ⟨1, printed.lines, some e⟩
    | none => ⟨if report.hasViolationsAt a.config.failOn then 1 else 0, printed.lines, none⟩

/-- A machine with a file written, where a directory does not stand in the way. -/
def write? (m : Machine) (file : Path) (content : List UInt8) : Option Machine :=
  let put (place : List FileName) : Machine := { m with files := m.files.put place (.file content) }
  match m.resolve? file with
  | some (.file _) => (m.files.locate? (m.absolute file)).map put
  | some _ => none
  | none =>
    (m.files.locate? (m.absolute (file.parent?.getD ⟨[]⟩))).bind fun directory =>
      file.fileName?.map fun name => put (directory ++ [name])

/-- Write a configuration to start from. -/
def init (m : Machine) (force : Bool) : Outcome × Machine :=
  if (m.resolve? Template.file).isSome && !force then (.failed (.configExists Template.file), m)
  else
    match m.write? Template.file (Utf8.encode Template.text.toList) with
    | some m => (.done Template.notice, m)
    | none => (.failed .unwritable, m)

/-- How the command is used, in short. -/
def usage : List String :=
  ["Usage: import-patterns [OPTIONS] <COMMAND>", "", "Commands:", "  check  Run lint checks",
    "  init   Initialize configuration file"]

/-- What some arguments ask for. -/
def request? (m : Machine) (args : List String) : Option Request :=
  Request.ofArguments? (m.valueOf? "IMPORT_PATTERNS_CONFIG") args

/-- Run the command with some arguments. -/
def run (m : Machine) (args : List String) : Outcome × Machine :=
  match m.request? args with
  | none => (⟨2, [], none⟩, m)
  | some .version => (.done ["import-patterns 0.1.0"], m)
  | some .help => (.done usage, m)
  | some (.check directory format excludes choice) => (m.check directory format excludes choice, m)
  | some (.init force) => m.init force

end Machine

end ImportLint

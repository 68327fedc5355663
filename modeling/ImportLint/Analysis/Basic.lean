import ImportLint.Config.Basic
import ImportLint.Extractor

/-!
# Analyzers

An **analyzer** is a configuration made ready to run: its root is an absolute path, and the globs of
what to leave out are checked.
-/

namespace ImportLint

/-- Why an analysis fails. -/
inductive AnalysisError where
  /-- A file cannot be read as text. -/
  | unreadable
  /-- A directory cannot be walked. -/
  | unwalkable
  /-- A glob of what to leave out is invalid. -/
  | exclude (cause : Glob.PatternError)
  /-- No extractor reads files like this one. -/
  | unsupported (file : Path)
  /-- The extractor of a file can make nothing of it. -/
  | unparsable (file : Path) (cause : ExtractError)
  deriving DecidableEq, Repr

/-- The wording of an error. -/
def AnalysisError.message : AnalysisError → String
  | unreadable => "IO error"
  | unwalkable => "walk error"
  | exclude cause => s!"invalid exclude pattern: {cause.message}"
  | unsupported file => s!"unsupported file type: {file.display}"
  | unparsable file cause => s!"failed to analyze {file.display}: {cause.message}"

/-- An analyzer. -/
structure Analyzer where
  /-- The directory to analyze, an absolute path. -/
  root : Path
  config : Config
  extractors : List Extractor
  exclude : List Glob.Pattern
  /-- Whether a file that cannot be parsed fails the analysis. -/
  failsOnParseError : Bool

namespace Analyzer

/-- The extension of a file with its dot, if it is text. -/
def extensionOf? (p : Path) : Option String :=
  (p.extension?.bind Utf8.decode?).map fun e => "." ++ String.ofList e

/-- An analyzer in a working directory: a relative root of the configuration is read in a base
directory. Additional globs of what to leave out come before those of the configuration. -/
def build (workingDirectory base : Path) (config : Config) (excludes : List String)
    (extractors : List Extractor) (failsOnParseError : Bool) : Except AnalysisError Analyzer := do
  let exclude ← ((excludes ++ config.exclude).mapM Glob.Pattern.ofString?).mapError .exclude
  pure {
    root := workingDirectory / (base / config.root)
    config := config
    extractors := if extractors.isEmpty then [.script] else extractors
    exclude := exclude
    failsOnParseError := failsOnParseError }

/-- The extractor for a file, and the extension of the file. -/
def extractorFor? (a : Analyzer) (file : Path) : Option (Extractor × String) :=
  (extensionOf? file).bind fun e => (a.extractors.find? (·.supports e)).map fun x => (x, e)

/-- A path relative to the root, if it is below the root. -/
def relative (a : Analyzer) (file : Path) : Path := (file.stripPrefix? a.root).getD file

end Analyzer

end ImportLint

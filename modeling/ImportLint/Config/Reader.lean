import ImportLint.Config.Basic
import ImportLint.Document.Record
import ImportLint.Json.Magnitude
import ImportLint.Toml.Reader

/-!
# Reading configurations

A configuration is a record with the settings of the analyzer, two severities and the entries; in
JSON it may also be the bare list of entries. A restriction may stand alone where a list of them is
meant. A list that is no list of entries is tried as a record next, its fields in their order.
-/

namespace ImportLint

open Document

/-- What a configuration says before its globs are checked. -/
structure Settings where
  root : Path
  exclude : List String
  respectGitignore : Bool
  severity : Severity
  failOn : Severity
  entries : List EntryText
  deriving DecidableEq, Repr

namespace Settings

/-- One restriction or a list of them. -/
def restrictions? : Document → Option (List (List Char))
  | .string s => some [s]
  | d => d.strings?

/-- An entry. -/
def entryText? (conv : Conventions) (d : Document) : Option EntryText := do
  match ← d.fields? conv ["target", "restrictions", "doc"] with
  | [some target, some restrictions, doc] =>
    let target ← target.string?
    let restrictions ← restrictions? restrictions
    let doc ← orDefault none (optional? string?) doc
    pure ⟨String.ofList target, restrictions.map String.ofList, doc.map String.ofList⟩
  | _ => none

/-- A list of entries. -/
def entries? (conv : Conventions) : Document → Option (List EntryText)
  | .list ds => ds.mapM (entryText? conv)
  | _ => none

/-- The settings of the analyzer where a configuration has no table for them. -/
def defaultAnalyzer : Path × List String × Bool := (Config.defaultRoot, Config.defaultExclude, true)

/-- The settings of the analyzer: root, excludes, and whether the ignore files of git count. Each
has a default of its own. -/
def analyzer? (conv : Conventions) (d : Document) : Option (Path × List String × Bool) := do
  match ← d.fields? conv ["root", "exclude", "respect_gitignore"] with
  | [root, exclude, respect] =>
    let root ←
      orDefault Config.defaultRoot
        (fun d => d.string?.map fun s => Path.ofString (String.ofList s)) root
    let exclude ←
      orDefault Config.defaultExclude (fun d => d.strings?.map (·.map String.ofList)) exclude
    let respect ← orDefault true bool? respect
    pure (root, exclude, respect)
  | _ => none

/-- A whole configuration as a record. -/
def record? (conv : Conventions) (d : Document) : Option Settings := do
  match ← d.fields? conv ["analyzer", "severity", "fail_on", "import-patterns"] with
  | [analyzer, severity, failOn, entries] =>
    let (root, exclude, respect) ← orDefault defaultAnalyzer (analyzer? conv) analyzer
    let severity ← orDefault default (severity? conv) severity
    let failOn ← orDefault default (severity? conv) failOn
    let entries ← orDefault [] (entries? conv) entries
    pure ⟨root, exclude, respect, severity, failOn, entries⟩
  | _ => none

/-- Check the globs of the entries. -/
def check (s : Settings) : Except ConfigError Config := do
  let entries ← Entry.ofTexts? s.entries
  pure ⟨s.root, s.exclude, s.respectGitignore, s.severity, s.failOn, entries⟩

end Settings

namespace Config

/-- The deepest nesting that a JSON configuration may have. -/
def maxDepth : Nat := 127

/-- Whether a plain value can be taken up at all. -/
def isSound : Document → Bool
  | .number spelling => Json.isInRange spelling
  | .halfString _ => false
  | _ => true

/-- A configuration from a JSON document. -/
def ofJson (d : Document) : Except ConfigError Config :=
  match Settings.entries? .jsonChoice d with
  | some entries => (Entry.ofTexts? entries).map Config.ofEntries
  | none =>
    match Settings.record? .jsonChoice d with
    | some s => s.check
    | none => .error .noReading

/-- Read a configuration in JSON. Whether the document has the form of one is decided before what
follows it is looked at, and its globs are checked last. -/
def parseJson (text : String) : Except ConfigError Config :=
  match Json.readFront text.toList with
  | some (d, rest) =>
    if maxDepth < d.depth || !d.holdsThroughout isSound then .error .malformed
    else if (Settings.entries? .jsonChoice d).isNone && (Settings.record? .jsonChoice d).isNone then
      .error .noReading
    else if (Json.skipBlanks rest).isEmpty then ofJson d
    else .error .malformed
  | none => .error .malformed

/-- Read a configuration in TOML. -/
def parseToml (text : String) : Except ConfigError Config :=
  match (Toml.read text.toList).bind (Settings.record? .toml) with
  | some s => s.check
  | none => .error .malformed

/-- Read a configuration in the format of a file extension: JSON for `json`, TOML for any other. -/
def parse (path : Path) (text : String) : Except ConfigError Config :=
  if path.extension? == some (Utf8.encode ['j', 's', 'o', 'n']) then parseJson text else
    parseToml text

end Config

end ImportLint

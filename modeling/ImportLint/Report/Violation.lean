import ImportLint.Path.Basic
import ImportLint.Severity
import ImportLint.Text.Decimal

/-!
# Violations

A **violation** is one import statement that breaks a rule: which rule, how grave that is, where the
statement stands, and what to do about it. It is shown on one line, as a paragraph, or as a
diagnostic that labels the statement in its source.
-/

namespace ImportLint

/-- A span of a file. Lines and columns count from one, offset and length are in bytes. -/
structure Location where
  file : Path
  line : Nat
  column : Nat
  offset : Nat
  length : Nat
  deriving DecidableEq, Repr

namespace Location

/-- The order of places: by file, then by line, then by column. -/
def compare (a b : Location) : Ordering :=
  (a.file.compare b.file).then ((Ord.compare a.line b.line).then (Ord.compare a.column b.column))

/-- A place as it is cited. -/
def cite (a : Location) : String :=
  s!"{a.file.display}:{Decimal.numeral a.line}:{Decimal.numeral a.column}"

end Location

/-- A violation. -/
structure Violation where
  /-- The code of the fault, such as `IMP001`. -/
  code : String
  /-- The name of the rule. -/
  rule : String
  severity : Severity
  location : Location
  message : String
  /-- What would mend the fault. -/
  suggestion : Option String
  /-- Where the reason for the rule is explained. -/
  docRef : Option String
  deriving DecidableEq, Repr

/-- A violation as it is shown beside its source: one labelled span. -/
structure Diagnostic where
  message : String
  help : Option String
  label : String
  offset : Nat
  length : Nat
  deriving DecidableEq, Repr

namespace Violation

/-- A violation on one line. -/
def display (v : Violation) : String :=
  s!"{v.location.cite}: {v.severity.word} [{v.code}] {v.message}" ++
    match v.docRef with
    | some doc => s!" (see: {doc})"
    | none => ""

/-- A violation as lines of a paragraph, with its severity spelled in some way. -/
def paragraph (spell : Severity → String) (v : Violation) : List String :=
  [s!"{v.code} {v.rule} at {v.location.cite}", s!"  {spell v.severity}: {v.message}"] ++
    (v.suggestion.map fun s => s!"  = help: {s}").toList ++
      (v.docRef.map fun doc => s!"  = see: {doc}").toList

/-- A violation as a paragraph. -/
def format (v : Violation) : String := String.join ((v.paragraph Severity.word).map (· ++ "\n"))

/-- What helps with a violation: a suggestion, or else the reason for the rule. -/
def help (v : Violation) : Option String :=
  match v.suggestion, v.docRef with
  | some s, _ => some s
  | none, some doc => some s!"see: {doc}"
  | none, none => none

/-- The diagnostic of a violation. -/
def diagnostic (v : Violation) : Diagnostic where
  message := s!"[{v.code}] {v.message}"
  help := v.help
  label := v.rule
  offset := v.location.offset
  length := v.location.length

end Violation

end ImportLint

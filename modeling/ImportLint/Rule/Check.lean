import ImportLint.Config.Basic
import ImportLint.Import
import ImportLint.Report.Violation
import ImportLint.Rule.Matcher

/-!
# Checking imports

The first entry whose target matches the path of a file governs the file, and no other entry counts
for it. Each import of the file must name its module in quotes; a module that is not named relative
to the file must match one of the restrictions of the entry. What does not is a violation, and
violations come in the order of the imports.
-/

namespace ImportLint

/-- Whether a character can quote a module specifier. -/
def isQuote (c : Char) : Bool := c == '\'' || c == '"' || c == '\x60'

/-- The module specifier that a literal quotes, if it ends with the quote it starts with. -/
def unquote? : List Char → Option (List Char)
  | [] => none
  | q :: r => if isQuote q && r.getLast? == some q then some r.dropLast else none

/-- Whether a module is named relative to the file that imports it. -/
def isRelative (specifier : List Char) : Bool := specifier.head? == some '.'

/-- How an import can break the rule. -/
inductive Breach where
  /-- The module specifier is not in quotes. -/
  | unquoted
  /-- The module satisfies no restriction. -/
  | restricted
  deriving DecidableEq, Repr

namespace Entry

/-- What is said about a module that satisfies no restriction. -/
def restrictionMessage (e : Entry) : String :=
  let restrictions := String.intercalate " or " (e.restrictions.map (·.text))
  s!"Imports violates '{restrictions}' restrictions."

end Entry

namespace Breach

/-- The code of a breach. -/
def code : Breach → String
  | restricted => "IMP001"
  | unquoted => "IMP002"

/-- What is said about a breach by an import. -/
def message (e : Entry) (i : Import) : Breach → String
  | restricted => e.restrictionMessage
  | unquoted => s!"Module specifier {String.ofList i.specifier} is not a quoted string literal."

/-- What would mend a breach. -/
def suggestion? : Breach → Option String
  | restricted => none
  | unquoted => some "write the module specifier as a quoted string literal"

/-- The violation that a breach by an import in a file is. -/
def violation (severity : Severity) (e : Entry) (file : Path) (i : Import)
    (b : Breach) : Violation where
  code := b.code
  rule := "import-patterns"
  severity := severity
  location := ⟨file, i.line, i.column + 1, i.offset, i.width⟩
  message := b.message e i
  suggestion := b.suggestion?
  docRef := e.docRef

end Breach

section

variable {m : Type → Type} [Monad m] (ask : Matcher m)

/-- The entry that governs a file. -/
def select (entries : List Entry) (file : Path) : m (Option Entry) :=
  entries.findM? fun e => ask ⟨String.ofList file.normalize, e.target⟩

/-- What is wrong with an import, if anything. -/
def breach? (e : Entry) (i : Import) : m (Option Breach) :=
  match unquote? i.specifier with
  | none => pure (some .unquoted)
  | some s =>
    if isRelative s then pure none
    else do
      let allowed ← e.restrictions.anyM fun r => ask ⟨String.ofList s, r⟩
      pure (if allowed then none else some .restricted)

/-- The violations of some imports of a file that an entry governs. -/
def checkImports (severity : Severity) (e : Entry) (file : Path) : List Import → m (List Violation)
  | [] => pure []
  | i :: is => do
    let breach ← breach? ask e i
    let rest ← checkImports severity e file is
    pure ((breach.map (·.violation severity e file i)).toList ++ rest)

/-- The violations of a file. -/
def check (config : Config) (file : Path) (imports : List Import) : m (List Violation) := do
  match ← select ask config.entries file with
  | some e => checkImports ask config.severity e file imports
  | none => pure []

end

end ImportLint

/-!
# Severities

How grave a violation is, in ascending order.
-/

namespace ImportLint

/-- The severity of a violation. -/
inductive Severity where
  | info
  | warning
  | error
  deriving DecidableEq, Repr

namespace Severity

/-- The word for a severity. -/
def word : Severity → String
  | info => "info"
  | warning => "warning"
  | error => "error"

/-- The severity that a word names. -/
def ofWord? : List Char → Option Severity
  | ['i', 'n', 'f', 'o'] => some info
  | ['w', 'a', 'r', 'n', 'i', 'n', 'g'] => some warning
  | ['e', 'r', 'r', 'o', 'r'] => some error
  | _ => none

/-- The word of a severity is read as the severity. -/
@[simp] theorem ofWord?_word (s : Severity) : ofWord? s.word.toList = some s := by
  cases s <;> rfl

/-- The place of a severity in the order. -/
def rank : Severity → Nat
  | info => 0
  | warning => 1
  | error => 2

/-- Where no severity is given, there is an error. -/
instance : Inhabited Severity := ⟨error⟩

/-- Severities are ordered by their ranks. -/
instance : LE Severity := ⟨fun s t => s.rank ≤ t.rank⟩

/-- Whether a severity is at most another can be decided. -/
instance (s t : Severity) : Decidable (s ≤ t) := inferInstanceAs (Decidable (s.rank ≤ t.rank))

/-- Severities are compared by their ranks. -/
instance : Ord Severity := ⟨fun s t => compare s.rank t.rank⟩

end Severity

end ImportLint

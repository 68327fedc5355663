/-!
# Imports

An **import** is one statement of a source file that names a module, and an **extraction** is what a
file imports. What reads a file into an extraction is a matter of its language.
-/

namespace ImportLint

/-- An import statement. -/
structure Import where
  /-- The module specifier as written, with its quotes. -/
  specifier : List Char
  /-- How many bytes come before the statement. -/
  offset : Nat
  /-- How many bytes wide the statement is. -/
  width : Nat
  /-- The line the statement starts on, counted from one. -/
  line : Nat
  /-- How many bytes come before the statement on its line. -/
  column : Nat
  deriving DecidableEq, Repr

/-- What a file imports. -/
structure Extraction where
  /-- The import statements, from first to last. -/
  imports : List Import
  /-- Whether some of the source could not be made sense of. -/
  hasErrors : Bool
  deriving DecidableEq, Repr

end ImportLint

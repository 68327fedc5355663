import ImportLint.Document.Basic

/-!
# Writing JSON

Documents as JSON, on one line or laid out: then each item and each member stands on a line of its
own, two blanks further in than what holds it, and an empty list or table stays on its line.
-/

namespace ImportLint.Json

/-- A digit of a hexadecimal number. -/
def hexDigit (n : Nat) : Char := if n < 10 then Char.ofNat (48 + n) else Char.ofNat (87 + n)

/-- A character of a string: quotes, backslashes and control characters are escaped. -/
def escape (c : Char) : List Char :=
  if c = '"' then ['\\', '"']
  else if c = '\\' then ['\\', '\\']
  else if c = '\x08' then ['\\', 'b']
  else if c = '\x0c' then ['\\', 'f']
  else if c = '\n' then ['\\', 'n']
  else if c = '\r' then ['\\', 'r']
  else if c = '\t' then ['\\', 't']
  else if c.toNat < 0x20 then
    ['\\', 'u', '0', '0', hexDigit (c.toNat / 16), hexDigit (c.toNat % 16)]
  else [c]

/-- A string literal. -/
def quote (s : List Char) : List Char := '"' :: s.flatMap escape ++ ['"']

/-- How a document is laid out. -/
inductive Layout where
  /-- On one line, without blanks. -/
  | compact
  /-- On lines of their own, at some depth. -/
  | lines (depth : Nat)
  deriving DecidableEq, Repr

namespace Layout

/-- The layout of what a list or table holds. -/
def inner : Layout → Layout
  | compact => compact
  | lines n => lines (n + 1)

/-- What comes before an item, or before the end of a list or table at the layout. -/
def newline : Layout → List Char
  | compact => []
  | lines n => '\n' :: List.replicate (2 * n) ' '

/-- What comes between a key and its value. -/
def colon : Layout → List Char
  | compact => [':']
  | lines _ => [':', ' ']

end Layout

mutual

/-- A document in a layout. -/
def write (l : Layout) : Document → List Char
  | .null => ['n', 'u', 'l', 'l']
  | .bool true => ['t', 'r', 'u', 'e']
  | .bool false => ['f', 'a', 'l', 's', 'e']
  | .number spelling => spelling
  | .string s => quote s
  | .halfString spelling => spelling
  | .moment => ['n', 'u', 'l', 'l']
  | .list [] => ['[', ']']
  | .list (d :: ds) =>
    '[' :: l.inner.newline ++ write l.inner d ++ writeItems l.inner ds ++ l.newline ++ [']']
  | .table [] => ['\x7b', '\x7d']
  | .table ((k, d) :: ms) =>
    '\x7b' :: l.inner.newline ++ quote k ++ l.colon ++ write l.inner d ++ writeMembers l.inner ms ++
      l.newline ++ ['\x7d']

/-- The items after the first. -/
def writeItems (l : Layout) : List Document → List Char
  | [] => []
  | d :: ds => ',' :: l.newline ++ write l d ++ writeItems l ds

/-- The members after the first. -/
def writeMembers (l : Layout) : List (List Char × Document) → List Char
  | [] => []
  | (k, d) :: ms => ',' :: l.newline ++ quote k ++ l.colon ++ write l d ++ writeMembers l ms

end

end ImportLint.Json

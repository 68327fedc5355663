import ImportLint.Toml.Quoted
import ImportLint.Toml.Scalar
import ImportLint.Toml.Table
import ImportLint.Text.Pieces

/-!
# Reading TOML

A TOML text is a list of statements, each on lines of its own: headers of sections, and assignments
of values to keys. Values and the keys they are assigned to are read first; then the sections are
put together, which is where a key that is given twice comes out.
-/

namespace ImportLint.Toml

/-- How deep lists and inline tables may be nested, and how many keys a dotted key may have. -/
def maxNesting : Nat := 79

/-- The text after the blanks ahead. -/
def skipBlanks (s : List Char) : List Char := s.dropWhile isBlank

/-- The text after a comment, if one is ahead, up to the end of its line. -/
def skipComment : List Char → List Char
  | '#' :: r => r.dropWhile isLineChar
  | s => s

/-- The text after the rest of a line, which may hold a comment only. -/
def endOfLine? (s : List Char) : Option (List Char) :=
  match skipComment (skipBlanks s) with
  | [] => some []
  | r => lineBreak? r

/-- The text after blanks, line breaks and comments; the number bounds their lines. -/
def skipLines : Nat → List Char → Option (List Char)
  | 0, s => some s
  | n + 1, s =>
    match skipBlanks s with
    | '#' :: r => (lineBreak? (r.dropWhile isLineChar)).bind (skipLines n)
    | '\n' :: r => skipLines n r
    | '\r' :: r => (lineBreak? ('\r' :: r)).bind (skipLines n)
    | r => some r

/-- The text after blanks, line breaks and comments. -/
def skipGap (s : List Char) : Option (List Char) := skipLines (s.length + 1) s

/-- The characters of a bare key. -/
def isKeyChar (c : Char) : Bool := c.isAlphanum || c == '-' || c == '_'

/-- One key, bare or quoted. -/
def simpleKey : List Char → Option (Key × List Char)
  | '"' :: r => basic r
  | '\'' :: r => literal r
  | s => if s.head?.any isKeyChar then some (s.takeWhile isKeyChar, s.dropWhile isKeyChar) else none

/-- The keys of a dotted key, with blanks around each; the number bounds how many they are. -/
def keys : Nat → List Char → Option (List Key × List Char)
  | 0, _ => none
  | n + 1, s =>
    (simpleKey (skipBlanks s)).bind fun k =>
      match skipBlanks k.2 with
      | '.' :: r => (keys n r).map fun ks => (k.1 :: ks.1, ks.2)
      | r => some ([k.1], r)

/-- A dotted key. -/
def keyPath (s : List Char) : Option (KeyPath × List Char) :=
  (keys maxNesting s).bind fun ks => ks.1.getLast?.map fun last => (⟨ks.1.dropLast, last⟩, ks.2)

/-- A dotted key and its value, with blanks around both. -/
def assignment (value : List Char → Option (Document × List Char)) (s : List Char) :
    Option ((KeyPath × Document) × List Char) :=
  (keyPath s).bind fun k =>
    match k.2 with
    | '=' :: r => (value (skipBlanks r)).map fun v => ((k.1, v.1), skipBlanks v.2)
    | _ => none

/-- The items of a list, up to its end; the number bounds how many they are. -/
def items (value : List Char → Option (Document × List Char)) :
    Nat → List Char → Option (List Document × List Char)
  | 0, _ => none
  | n + 1, s =>
    (skipGap s).bind fun
      | ']' :: r => some ([], r)
      | r =>
        (value r).bind fun v =>
          (skipGap v.2).bind fun
            | ',' :: r => (items value n r).map fun p => (v.1 :: p.1, p.2)
            | ']' :: r => some ([v.1], r)
            | _ => none

/-- The assignments of an inline table, up to its end; the number bounds how many they are. -/
def assignments (value : List Char → Option (Document × List Char)) :
    Nat → List Char → Option (List (KeyPath × Document) × List Char)
  | 0, _ => none
  | n + 1, s =>
    (assignment value s).bind fun
      | (a, ',' :: r) => (assignments value n r).map fun p => (a :: p.1, p.2)
      | (a, '\x7d' :: r) => some ([a], r)
      | _ => none

/-- An inline table, after its opening brace. -/
def inlineTable (value : List Char → Option (Document × List Char)) (s : List Char) :
    Option (Document × List Char) :=
  match skipBlanks s with
  | '\x7d' :: r => some (.table [], r)
  | s =>
    (assignments value s.length s).bind fun p =>
      (Members.assignAll p.1 []).map fun ms => (.table (membersToDocuments ms), p.2)

/-- A value; the number limits the nesting of lists and inline tables. -/
def value : Nat → List Char → Option (Document × List Char)
  | limit, s =>
    match s, limit with
    | '[' :: r, n + 1 => (items (value n) (r.length + 1) r).map fun p => (.list p.1, p.2)
    | '\x7b' :: r, n + 1 => inlineTable (value n) r
    | '"' :: r, _ => (quoted ('"' :: r)).map fun p => (.string p.1, p.2)
    | '\'' :: r, _ => (quoted ('\'' :: r)).map fun p => (.string p.1, p.2)
    | s, _ => scalar s

/-- A statement. -/
inductive Statement where
  /-- The header of a table. -/
  | table (path : KeyPath)
  /-- The header of an item of a list of tables. -/
  | item (path : KeyPath)
  | assign (path : KeyPath) (value : Document)
  deriving Repr

/-- A header after its opening brackets. -/
def header (close : List Char) (f : KeyPath → Statement) (s : List Char) :
    Option (Statement × List Char) :=
  (keyPath s).bind fun k => (stripPrefix? close k.2).map fun r => (f k.1, r)

/-- The statement at the front of a text. -/
def statement : List Char → Option (Statement × List Char)
  | '[' :: '[' :: r => header [']', ']'] .item r
  | '[' :: r => header [']'] .table r
  | s => (assignment (value maxNesting) s).map fun p => (.assign p.1.1 p.1.2, p.2)

/-- The statements of a text; the number bounds its lines. -/
def statements : Nat → List Char → Option (List Statement)
  | 0, _ => none
  | n + 1, s =>
    match skipBlanks s with
    | [] => some []
    | '#' :: r => (endOfLine? ('#' :: r)).bind (statements n)
    | '\n' :: r => statements n r
    | '\r' :: r => (lineBreak? ('\r' :: r)).bind (statements n)
    | s =>
      (statement s).bind fun p =>
        (endOfLine? p.2).bind fun r => (statements n r).map (p.1 :: ·)

/-- A section: the assignments after a header and where they go. -/
structure Section where
  place : (Members → Option Members) → Members → Option Members
  assignments : List (KeyPath × Document)

/-- The assignments before the first header, and the sections. -/
def sections : List Statement → List (KeyPath × Document) × List Section
  | [] => ([], [])
  | .assign path value :: r => ((path, value) :: (sections r).1, (sections r).2)
  | .table path :: r => ([], ⟨Members.openTable path, (sections r).1⟩ :: (sections r).2)
  | .item path :: r => ([], ⟨Members.openItem path, (sections r).1⟩ :: (sections r).2)

/-- The table that statements build. -/
def build (ss : List Statement) : Option Document :=
  let parts := sections ss
  (Members.assignAll parts.1 []).bind fun root =>
    (parts.2.foldlM (fun ms (s : Section) => s.place (Members.assignAll s.assignments) ms) root).map
      fun ms =>
      .table (membersToDocuments ms)

/-- A text without a byte order mark. -/
def dropMark : List Char → List Char
  | c :: r => if c = Char.ofNat 0xFEFF then r else c :: r
  | [] => []

/-- The document that a text is. -/
def read (s : List Char) : Option Document := (statements (s.length + 1) (dropMark s)).bind build

end ImportLint.Toml

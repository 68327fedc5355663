import ImportLint.Document.Basic

/-!
# Reading JSON

JSON texts as documents. Reading is a matter of form only: a number may be too large for any use and
a string may hold half of a surrogate pair, which is for the reader of the document to judge.
-/

namespace ImportLint.Json

/-- The blanks of JSON. -/
def isBlank (c : Char) : Bool := c == ' ' || c == '\n' || c == '\t' || c == '\r'

/-- The text after the blanks ahead. -/
def skipBlanks (s : List Char) : List Char := s.dropWhile isBlank

/-- The value of a hexadecimal digit. -/
def hexValue? (c : Char) : Option Nat :=
  if c.isDigit then some (c.toNat - '0'.toNat)
  else if 'a' ≤ c && c ≤ 'f' then some (c.toNat - 'a'.toNat + 10)
  else if 'A' ≤ c && c ≤ 'F' then some (c.toNat - 'A'.toNat + 10)
  else none

/-- The number of hexadecimal digits. -/
def hexNumber? (ds : List Char) : Option Nat :=
  ds.foldlM (fun n c => (hexValue? c).map (n * 16 + ·)) 0

/-- The character of an escape of one letter. -/
def shortEscape? : Char → Option Char
  | '"' => some '"'
  | '\\' => some '\\'
  | '/' => some '/'
  | 'b' => some '\x08'
  | 'f' => some '\x0c'
  | 'n' => some '\n'
  | 'r' => some '\r'
  | 't' => some '\t'
  | _ => none

/-- One unit of a string literal: a character, or half of a surrogate pair. -/
abbrev StringUnit := Char ⊕ Nat

/-- The units of a string literal after its opening quote, and the text after its closing one. -/
def stringUnits : List Char → Option (List StringUnit × List Char)
  | [] => none
  | '"' :: r => some ([], r)
  | '\\' :: 'u' :: a :: b :: c :: d :: r =>
    (hexNumber? [a, b, c, d]).bind fun n =>
      (stringUnits r).map fun p =>
        ((if 0xD800 ≤ n && n ≤ 0xDFFF then .inr n else .inl (Char.ofNat n)) :: p.1, p.2)
  | '\\' :: e :: r =>
    (shortEscape? e).bind fun c => (stringUnits r).map fun p => (.inl c :: p.1, p.2)
  | c :: r =>
    if c.toNat < 0x20 || c = '\\' then none else (stringUnits r).map fun p => (.inl c :: p.1, p.2)

/-- Units as a text: halves of surrogate pairs must meet. -/
def textOfUnits? : List StringUnit → Option (List Char)
  | [] => some []
  | .inl c :: us => (textOfUnits? us).map (c :: ·)
  | .inr hi :: .inr lo :: us =>
    if hi < 0xDC00 && 0xDC00 ≤ lo then
      (textOfUnits? us).map (Char.ofNat (0x10000 + (hi - 0xD800) * 0x400 + (lo - 0xDC00)) :: ·)
    else none
  | .inr _ :: _ => none

/-- Digits, at least one. -/
def someDigits (s : List Char) : Option (List Char × List Char) :=
  if s.head?.any Char.isDigit then some (s.takeWhile Char.isDigit, s.dropWhile Char.isDigit)
  else none

/-- The digits before the point: a zero stands alone. -/
def integerPart : List Char → Option (List Char × List Char)
  | '0' :: r => if r.head?.any Char.isDigit then none else some (['0'], r)
  | s => someDigits s

/-- A point and the digits after it, or nothing. -/
def fractionPart : List Char → Option (List Char × List Char)
  | '.' :: r => (someDigits r).map fun p => ('.' :: p.1, p.2)
  | s => some ([], s)

/-- An exponent, or nothing. -/
def exponentPart : List Char → Option (List Char × List Char)
  | c :: r =>
    if c = 'e' || c = 'E' then
      match r with
      | '+' :: r => (someDigits r).map fun p => (c :: '+' :: p.1, p.2)
      | '-' :: r => (someDigits r).map fun p => (c :: '-' :: p.1, p.2)
      | r => (someDigits r).map fun p => (c :: p.1, p.2)
    else some ([], c :: r)
  | [] => some ([], [])

/-- A number without its sign. -/
def magnitude (s : List Char) : Option (List Char × List Char) :=
  (integerPart s).bind fun i =>
    (fractionPart i.2).bind fun f =>
      (exponentPart f.2).map fun e => (i.1 ++ f.1 ++ e.1, e.2)

/-- A number as it is spelled. -/
def numberSpelling : List Char → Option (List Char × List Char)
  | '-' :: r => (magnitude r).map fun p => ('-' :: p.1, p.2)
  | s => magnitude s

/-- A string literal after its opening quote. -/
def stringDocument (r : List Char) : Option (Document × List Char) :=
  (stringUnits r).map fun p =>
    match textOfUnits? p.1 with
    | some s => (.string s, p.2)
    | none => (.halfString ('"' :: r.take (r.length - p.2.length)), p.2)

/-- A key and the colon after it. -/
def key : List Char → Option (List Char × List Char)
  | '"' :: r =>
    (stringUnits r).bind fun p =>
      (textOfUnits? p.1).bind fun k =>
        match skipBlanks p.2 with
        | ':' :: rest => some (k, rest)
        | _ => none
  | _ => none

mutual

/-- A value, after blanks; the number bounds its length. -/
def value : Nat → List Char → Option (Document × List Char)
  | 0, _ => none
  | n + 1, s =>
    match skipBlanks s with
    | 'n' :: 'u' :: 'l' :: 'l' :: r => some (.null, r)
    | 't' :: 'r' :: 'u' :: 'e' :: r => some (.bool true, r)
    | 'f' :: 'a' :: 'l' :: 's' :: 'e' :: r => some (.bool false, r)
    | '"' :: r => stringDocument r
    | '[' :: r =>
      match skipBlanks r with
      | ']' :: r => some (.list [], r)
      | r => (items n r).map fun p => (.list p.1, p.2)
    | '\x7b' :: r =>
      match skipBlanks r with
      | '\x7d' :: r => some (.table [], r)
      | r => (members n r).map fun p => (.table p.1, p.2)
    | r => (numberSpelling r).map fun p => (.number p.1, p.2)

/-- The items of a list, up to its end. -/
def items : Nat → List Char → Option (List Document × List Char)
  | 0, _ => none
  | n + 1, s =>
    (value n s).bind fun p =>
      match skipBlanks p.2 with
      | ',' :: r => (items n r).map fun q => (p.1 :: q.1, q.2)
      | ']' :: r => some ([p.1], r)
      | _ => none

/-- The members of a table, up to its end. -/
def members : Nat → List Char → Option (List (List Char × Document) × List Char)
  | 0, _ => none
  | n + 1, s =>
    (key (skipBlanks s)).bind fun k =>
      (value n k.2).bind fun p =>
        match skipBlanks p.2 with
        | ',' :: r => (members n r).map fun q => ((k.1, p.1) :: q.1, q.2)
        | '\x7d' :: r => some ([(k.1, p.1)], r)
        | _ => none

end

/-- The document at the front of a text, and what follows it. -/
def readFront (s : List Char) : Option (Document × List Char) := value (s.length + 1) s

/-- The document that a text is. -/
def read (s : List Char) : Option Document :=
  (readFront s).bind fun p => if (skipBlanks p.2).isEmpty then some p.1 else none

end ImportLint.Json

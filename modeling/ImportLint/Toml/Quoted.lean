import ImportLint.Json.Reader

/-!
# Quoted texts of TOML

Strings in four kinds of quotes. Double quotes admit escapes, single quotes take every character as
it is; three of either admit line breaks, a first of which does not count.
-/

namespace ImportLint.Toml

/-- The blanks within a line. -/
def isBlank (c : Char) : Bool := c == ' ' || c == '\t'

/-- The characters that may stand within a line: no control characters but the tab. -/
def isLineChar (c : Char) : Bool := c == '\t' || (0x20 ≤ c.toNat && c.toNat != 0x7F)

/-- What follows a line break; a carriage return alone is none. -/
def lineBreak? : List Char → Option (List Char)
  | '\n' :: r => some r
  | '\r' :: '\n' :: r => some r
  | _ => none

/-- The character of a number, if there is one. -/
def charOfNumber? (n : Nat) : Option Char :=
  if h : n.isValidChar then some (Char.ofNatAux n h) else none

/-- The character of an escape after its backslash, and what follows it. -/
def escape : List Char → Option (Char × List Char)
  | 'b' :: r => some ('\x08', r)
  | 't' :: r => some ('\t', r)
  | 'n' :: r => some ('\n', r)
  | 'f' :: r => some ('\x0c', r)
  | 'r' :: r => some ('\r', r)
  | '"' :: r => some ('"', r)
  | '\\' :: r => some ('\\', r)
  | 'u' :: a :: b :: c :: d :: r =>
    ((Json.hexNumber? [a, b, c, d]).bind charOfNumber?).map fun x => (x, r)
  | 'U' :: a :: b :: c :: d :: e :: f :: g :: h :: r =>
    ((Json.hexNumber? [a, b, c, d, e, f, g, h]).bind charOfNumber?).map fun x => (x, r)
  | _ => none

/-- What follows an escape is shorter than the text that starts with it. -/
theorem length_lt_of_escape {s r : List Char} {c : Char} (h : escape s = some (c, r)) :
    r.length < s.length := by
  unfold escape at h
  split at h
  all_goals first
    | (simp only [Option.some.injEq, Prod.mk.injEq] at h; obtain ⟨-, rfl⟩ := h; simp)
    | (obtain ⟨x, -, hx⟩ := Option.map_eq_some_iff.1 h
       simp only [Prod.mk.injEq] at hx
       obtain ⟨-, rfl⟩ := hx
       simp only [List.length_cons]
       omega)
    | cases h

/-- A text in double quotes, after the opening one. -/
def basic : List Char → Option (List Char × List Char)
  | [] => none
  | '"' :: r => some ([], r)
  | '\\' :: r =>
    match _h : escape r with
    | some (c, rest) => (basic rest).map fun p => (c :: p.1, p.2)
    | none => none
  | c :: r => if isLineChar c then (basic r).map fun p => (c :: p.1, p.2) else none
termination_by s => s.length
decreasing_by
  · have := length_lt_of_escape _h
    simp only [List.length_cons]
    omega
  · simp

/-- A text in single quotes, after the opening one. -/
def literal : List Char → Option (List Char × List Char)
  | [] => none
  | '\'' :: r => some ([], r)
  | c :: r => if isLineChar c then (literal r).map fun p => (c :: p.1, p.2) else none

/-- The end of a text in triple quotes: three of them, and before them up to two that belong to
it. -/
def tripleEnd? (q : Char) : List Char → Option (List Char × List Char)
  | a :: b :: c :: r =>
    if a = q && b = q && c = q then
      match r with
      | d :: e :: r' =>
        if d = q && e = q then some ([q, q], r') else if d = q then some ([q], e :: r') else
          some ([], r)
      | [d] => if d = q then some ([q], []) else some ([], r)
      | [] => some ([], [])
    else none
  | _ => none

/-- What follows a backslash at the end of a line and all blanks and line breaks after it. -/
def afterContinuation? (r : List Char) : Option (List Char) :=
  (lineBreak? (r.dropWhile isBlank)).map fun rest => skip rest
where
  /-- Skip blanks and line breaks. -/
  skip : List Char → List Char
    | ' ' :: r => skip r
    | '\t' :: r => skip r
    | '\n' :: r => skip r
    | '\r' :: '\n' :: r => skip r
    | r => r

/-- Skipping blank lines makes a text no longer. -/
theorem length_skip_le (s : List Char) : (afterContinuation?.skip s).length ≤ s.length := by
  fun_induction afterContinuation?.skip s <;> simp_all <;> omega

/-- What follows a line break is shorter than the text that starts with it. -/
theorem length_lt_of_lineBreak? {s r : List Char} (h : lineBreak? s = some r) :
    r.length < s.length := by
  unfold lineBreak? at h
  split at h <;> grind

/-- What follows a continued line is shorter than the text that starts with it. -/
theorem length_lt_of_afterContinuation? {s r : List Char} (h : afterContinuation? s = some r) :
    r.length < s.length := by
  obtain ⟨x, hx, rfl⟩ := Option.map_eq_some_iff.1 h
  have h1 := length_skip_le x
  have h2 := length_lt_of_lineBreak? hx
  have h3 : (s.dropWhile isBlank).length ≤ s.length := (List.dropWhile_suffix _).length_le
  omega

/-- A text in triple double quotes, after the opening ones. -/
def multilineBasic (s : List Char) : Option (List Char × List Char) :=
  match tripleEnd? '"' s with
  | some p => some p
  | none =>
    match s with
    | [] => none
    | '\\' :: r =>
      match _h : afterContinuation? r with
      | some rest => multilineBasic rest
      | none =>
        match _h : escape r with
        | some (c, rest) => (multilineBasic rest).map fun p => (c :: p.1, p.2)
        | none => none
    | '\n' :: r => (multilineBasic r).map fun p => ('\n' :: p.1, p.2)
    | '\r' :: '\n' :: r => (multilineBasic r).map fun p => ('\n' :: p.1, p.2)
    | c :: r => if isLineChar c then (multilineBasic r).map fun p => (c :: p.1, p.2) else none
termination_by s.length
decreasing_by
  · have := length_lt_of_afterContinuation? _h
    simp only [List.length_cons]
    omega
  · have := length_lt_of_escape _h
    simp only [List.length_cons]
    omega
  all_goals simp only [List.length_cons]; omega

/-- A text in triple single quotes, after the opening ones. -/
def multilineLiteral (s : List Char) : Option (List Char × List Char) :=
  match tripleEnd? '\'' s with
  | some p => some p
  | none =>
    match s with
    | [] => none
    | '\n' :: r => (multilineLiteral r).map fun p => ('\n' :: p.1, p.2)
    | '\r' :: '\n' :: r => (multilineLiteral r).map fun p => ('\n' :: p.1, p.2)
    | c :: r => if isLineChar c then (multilineLiteral r).map fun p => (c :: p.1, p.2) else none
termination_by s.length
decreasing_by all_goals (simp; try omega)

/-- A text in any quotes. -/
def quoted : List Char → Option (List Char × List Char)
  | '"' :: '"' :: '"' :: r => multilineBasic ((lineBreak? r).getD r)
  | '\'' :: '\'' :: '\'' :: r => multilineLiteral ((lineBreak? r).getD r)
  | '"' :: r => basic r
  | '\'' :: r => literal r
  | _ => none

end ImportLint.Toml

/-!
# Lexemes of script source

The smallest pieces of TypeScript and JavaScript text: blanks and comments, words, punctuation,
literals, and the point where a statement ends without a written semicolon. Every scanner takes the
characters that are left and answers with the characters it takes and those it leaves, so that
nothing is lost between the two. Scanners that cross several states (a comment inside a string, say)
recurse on the characters with the state as an argument.
-/

namespace ImportLint.Script

/-! ## Character classes -/

/-- The blanks of the C locale, the only ones that the search for an unwritten semicolon skips. -/
def isAsciiBlank (c : Char) : Bool :=
  c == ' ' || (9 ≤ c.toNat && c.toNat ≤ 13)

/-- A **blank** may stand between any two tokens: the ASCII blanks, the Unicode space separators,
the line and paragraph separators, and the zero-width marks. -/
def isBlank (c : Char) : Bool :=
  isAsciiBlank c || c.toNat == 0xA0 || c.toNat ==
    0x1680 || (0x2000 ≤ c.toNat && c.toNat ≤ 0x200B) ||
    c.toNat == 0x2028 || c.toNat == 0x2029 || c.toNat == 0x202F || c.toNat == 0x205F ||
    c.toNat == 0x2060 || c.toNat == 0x3000 || c.toNat == 0xFEFF

/-- The characters that end a line comment. -/
def isLineEnd (c : Char) : Bool :=
  c == '\n' || c == '\r' || c.toNat == 0x2028 || c.toNat == 0x2029

/-- Hexadecimal digits of either case. -/
def isHexDigit (c : Char) : Bool :=
  c.isDigit || ('a' ≤ c && c ≤ 'f') || ('A' ≤ c && c ≤ 'F')

/-- A word character is anything but a control character, a blank or ASCII punctuation. -/
def isWordChar (c : Char) : Bool :=
  !(c.toNat < 0x20 || isBlank c ||
    [':', ';', '\x60', '"', '\'', '@', '#', '.', ',', '|', '^', '&', '<', '=', '>', '+', '-', '*',
      '/', '\\', '%', '?', '!', '~', '(', ')', '[', ']', '\x7b', '\x7d'].contains c)

/-- What a scanner answers: the text it takes and the text it leaves. -/
abbrev Split := List Char × List Char

/-- Put a character in front of the text taken. -/
def Split.cons (c : Char) (p : Split) : Split := (c :: p.1, p.2)

/-- A character in front belongs to what is read. -/
@[simp] theorem Split.cons_fst (c : Char) (p : Split) : (Split.cons c p).1 = c :: p.1 := rfl

/-- A character in front changes nothing about the rest. -/
@[simp] theorem Split.cons_snd (c : Char) (p : Split) : (Split.cons c p).2 = p.2 := rfl

/-- Take a fixed text, if the input starts with it. -/
def literally : List Char → List Char → Option Split
  | [], s => some ([], s)
  | w :: ws, c :: s => if w = c then (literally ws s).map (Split.cons c) else none
  | _ :: _, [] => none

/-! ## Blanks and comments -/

/-- Where a scanner of blanks stands. -/
inductive Between where
  /-- Outside comments. -/
  | open
  /-- In a comment that the end of the line closes. -/
  | line
  /-- In a comment that a star and a slash close. -/
  | block
  deriving DecidableEq, Repr

/-- Whether a block comment opened before these characters is closed. -/
def closesBlock : List Char → Bool
  | '*' :: '/' :: _ => true
  | _ :: r => closesBlock r
  | [] => false

/-- The blanks and comments ahead, as far as they go. A block comment that is never closed is not
a comment. -/
def gapFrom : Between → List Char → Split
  | _, [] => ([], [])
  | .open, '/' :: '/' :: r => Split.cons '/' (Split.cons '/' (gapFrom .line r))
  | .open, '/' :: '*' :: r =>
    if closesBlock r then Split.cons '/' (Split.cons '*' (gapFrom .block r)) else
      ([], '/' :: '*' :: r)
  | .open, c :: r => if isBlank c then Split.cons c (gapFrom .open r) else ([], c :: r)
  | .line, c :: r =>
    if isLineEnd c then Split.cons c (gapFrom .open r) else Split.cons c (gapFrom .line r)
  | .block, '*' :: '/' :: r => Split.cons '*' (Split.cons '/' (gapFrom .open r))
  | .block, c :: r => Split.cons c (gapFrom .block r)

/-- The **gap** ahead of the next token: its blanks and comments. -/
def gap (s : List Char) : Split := gapFrom .open s

/-! ## Statements that end without a semicolon -/

/-- What follows the blanks and comments ahead; `none` if a slash there opens no comment. Here a
line comment ends only at a newline, and a block comment may run to the end of the text. -/
def afterComments : Between → List Char → Option (List Char)
  | _, [] => some []
  | .open, '/' :: '/' :: r => afterComments .line r
  | .open, '/' :: '*' :: r => afterComments .block r
  | .open, '/' :: _ => none
  | .open, c :: r => if isAsciiBlank c then afterComments .open r else some (c :: r)
  | .line, c :: r => if c = '\n' then afterComments .open r else afterComments .line r
  | .block, '*' :: '/' :: r => afterComments .open r
  | .block, _ :: r => afterComments .block r

/-- Whether the text starts with a keyword operator, not continued by a further letter. -/
def startsWithOperatorWord : List Char → Bool
  | 'i' :: 'n' :: 's' :: 't' :: 'a' :: 'n' :: 'c' :: 'e' :: 'o' :: 'f' :: r =>
    !r.head?.any Char.isAlpha
  | 'i' :: 'n' :: r => !r.head?.any Char.isAlpha
  | _ => false

/-- Whether the first text of a new line starts a new statement rather than going on with the one
before. `inExpression` says that a binary operator could stand here. -/
def startsStatement (inExpression : Bool) : List Char → Bool
  | [] => true
  | '+' :: r => r.head? == some '+'
  | '-' :: r => r.head? == some '-'
  | '!' :: r => r.head? != some '='
  | '(' :: _ => !inExpression
  | '[' :: _ => !inExpression
  | c :: r =>
    c ∉ ['\x60', ',', '.', ';', '*', '%', '>', '<', '=', '?', '^', '|', '&', '/', ':'] &&
      !startsWithOperatorWord (c :: r)

/-- Whether a statement that has just been read ends here although no semicolon is written: at the
end of the text, before a closing brace, or before a line that starts a new statement. -/
def endsStatement (inExpression : Bool) : List Char → Bool
  | [] => true
  | '\n' :: r => (afterComments .open r).any (startsStatement inExpression)
  | '\x7d' :: r => (r.dropWhile isAsciiBlank).head? != some ':' || inExpression
  | c :: r => isAsciiBlank c && endsStatement inExpression r

/-- The end of a statement after its last token: the gap, the semicolon or nothing, and the rest. An
unwritten end is looked for right after the last token and again after each comment, which is what
`fresh` says; a written one follows the whole gap. -/
def statementEnd (inExpression : Bool) :
    Between → (fresh : Bool) → List Char → Option (List Char × List Char × List Char)
  | .open, fresh, [] => if fresh then some ([], [], []) else none
  | .line, _, [] => some ([], [], [])
  | .block, _, [] => none
  | .open, fresh, '/' :: '/' :: r =>
    if fresh && endsStatement inExpression ('/' :: '/' :: r) then some ([], [], '/' :: '/' :: r)
    else (statementEnd inExpression .line false r).map fun p => ('/' :: '/' :: p.1, p.2)
  | .open, fresh, '/' :: '*' :: r =>
    if fresh && endsStatement inExpression ('/' :: '*' :: r) then some ([], [], '/' :: '*' :: r)
    else (statementEnd inExpression .block false r).map fun p => ('/' :: '*' :: p.1, p.2)
  | .open, fresh, c :: r =>
    if fresh && endsStatement inExpression (c :: r) then some ([], [], c :: r)
    else if c = ';' then some ([], [';'], r)
    else if isBlank c then (statementEnd inExpression .open false r).map fun p => (c :: p.1, p.2)
    else none
  | .line, _, c :: r =>
    if isLineEnd c then
      if endsStatement inExpression (c :: r) then some ([], [], c :: r)
      else (statementEnd inExpression .open false r).map fun p => (c :: p.1, p.2)
    else (statementEnd inExpression .line false r).map fun p => (c :: p.1, p.2)
  | .block, _, '*' :: '/' :: r =>
    (statementEnd inExpression .open true r).map fun p => ('*' :: '/' :: p.1, p.2)
  | .block, _, c :: r => (statementEnd inExpression .block false r).map fun p => (c :: p.1, p.2)

/-! ## Words -/

/-- The letters of a word after its first, with `\uXXXX` and `\u{X}` standing for letters; the flag
says that the scanner is between the braces of the latter. -/
def wordTail : (braced : Bool) → List Char → Split
  | _, [] => ([], [])
  | false, '\\' :: 'u' :: '\x7b' :: r =>
    Split.cons '\\' (Split.cons 'u' (Split.cons '\x7b' (wordTail true r)))
  | false, '\\' :: 'u' :: a :: b :: c :: d :: r =>
    if [a, b, c, d].all isHexDigit then
      Split.cons '\\' (Split.cons 'u' (Split.cons a (Split.cons b (Split.cons c (Split.cons d
        (wordTail false r))))))
    else ([], '\\' :: 'u' :: a :: b :: c :: d :: r)
  | false, c :: r => if isWordChar c then Split.cons c (wordTail false r) else ([], c :: r)
  | true, '\x7d' :: r => Split.cons '\x7d' (wordTail false r)
  | true, c :: r => if isHexDigit c then Split.cons c (wordTail true r) else ([], c :: r)

/-- A **word**: a name or a keyword. It does not start with a digit. -/
def word (s : List Char) : Option Split :=
  if s.head?.any Char.isDigit then none
  else if (wordTail false s).1.isEmpty then none else some (wordTail false s)

/-- A name that only the body of its class can see. -/
def privateWord : List Char → Option Split
  | '#' :: s => (word s).map (Split.cons '#')
  | _ => none

/-- The name of an element or attribute of markup: a word, in which hyphens may follow ASCII
letters. -/
def markupWord (s : List Char) : Option Split :=
  let letter (c : Char) : Bool := c.isAlphanum || c == '_' || c == '$'
  if s.head?.any fun c => letter c && !c.isDigit then
    let hyphenated := s.span fun c => letter c || c == '-'
    (word s).map fun plain => if plain.1.length < hyphenated.1.length then hyphenated else plain
  else word s

/-! ## Punctuation -/

/-- The operators of expressions, among which the longest one that fits is the one that is meant. -/
def operators : List (List Char) :=
  ["<", ">", "<=", ">=", "==", "!=", "===", "!==", "+", "-", "*", "/", "%", "**", "++", "--", "<<",
    ">>", ">>>", "&", "|", "^", "!", "&&", "||", "??", "?", "?.", "=", "+=", "-=", "*=", "/=", "%=",
    "**=", "<<=", ">>=", ">>>=", "&=", "|=", "^=", "&&=", "||=", "??=", "=>", ".",
    "..."].map String.toList

/-- Punctuation, unless the input starts with a longer operator. -/
def punctuation (m s : List Char) : Option Split :=
  match literally m s with
  | some p =>
    if operators.any fun o =>
      m.length < o.length && m.isPrefixOf o && o.isPrefixOf s then none else some p
  | none => none

/-- The question mark of a conditional expression: not one half of `??`, nor of `?.` unless a digit
follows. -/
def questionMark : List Char → Option Split
  | '?' :: '?' :: _ => none
  | '?' :: '.' :: c :: r => if c.isDigit then some (['?'], '.' :: c :: r) else none
  | '?' :: r => some (['?'], r)
  | _ => none

/-! ## Literals -/

/-- Where a scanner of a string literal stands. -/
inductive InString where
  /-- Among the characters of the string. -/
  | body
  /-- After a line end: only blanks, comments and the closing quote may follow. -/
  | gap
  /-- In a comment after a line end. -/
  | comment (kind : Between)
  /-- In an escape, with so many hexadecimal digits to come. -/
  | digits (left : Nat)
  /-- In a braced escape; the flag says that it has a digit. -/
  | braced (some : Bool)

/-- The rest of a string literal after its opening quote, up to its closing quote. An escape is
never malformed. A line end may only be escaped, or be followed by nothing but blanks and comments
before the string is closed or a block comment is. -/
def stringTail (quote : Char) : InString → List Char → Option Split
  | _, [] => none
  | .digits (n + 1), c :: r =>
    if isHexDigit c then (stringTail quote (if n = 0 then .body else .digits n) r).map
      (Split.cons c) else none
  | .braced filled, c :: r =>
    if isHexDigit c then (stringTail quote (.braced true) r).map (Split.cons c)
    else if filled && c = '\x7d' then (stringTail quote .body r).map (Split.cons c) else none
  | .comment .block, '*' :: '/' :: r =>
    (stringTail quote .body r).map (Split.cons '*' ∘ Split.cons '/')
  | .comment .line, c :: r =>
    (stringTail quote (if isLineEnd c then .gap else .comment .line) r).map (Split.cons c)
  | .comment k, c :: r => (stringTail quote (.comment k) r).map (Split.cons c)
  | .gap, '/' :: '/' :: r =>
    (stringTail quote (.comment .line) r).map (Split.cons '/' ∘ Split.cons '/')
  | .gap, '/' :: '*' :: r =>
    (stringTail quote (.comment .block) r).map (Split.cons '/' ∘ Split.cons '*')
  | .gap, c :: r =>
    if c = quote then some ([c], r)
    else if isBlank c then (stringTail quote .gap r).map (Split.cons c) else none
  | _, '\\' :: 'x' :: r => (stringTail quote (.digits 2) r).map (Split.cons '\\' ∘ Split.cons 'x')
  | _, '\\' :: 'u' :: '\x7b' :: r =>
    (stringTail quote (.braced false) r).map (Split.cons '\\' ∘ Split.cons 'u' ∘ Split.cons '\x7b')
  | _, '\\' :: 'u' :: r => (stringTail quote (.digits 4) r).map (Split.cons '\\' ∘ Split.cons 'u')
  | _, '\\' :: '\r' :: '\n' :: r =>
    (stringTail quote .body r).map (Split.cons '\\' ∘ Split.cons '\r' ∘ Split.cons '\n')
  | _, '\\' :: c :: r => (stringTail quote .body r).map (Split.cons '\\' ∘ Split.cons c)
  | _, c :: r =>
    if c = quote then some ([c], r)
    else if c = '\n' || c = '\r' then (stringTail quote .gap r).map (Split.cons c)
    else if c = '\\' then none
    else (stringTail quote .body r).map (Split.cons c)

/-- A **string literal**, in single or double quotes. -/
def stringLiteral : List Char → Option Split
  | '\'' :: r => (stringTail '\'' .body r).map (Split.cons '\'')
  | '"' :: r => (stringTail '"' .body r).map (Split.cons '"')
  | _ => none

/-- Digits of a kind, single underscores allowed between two of them. -/
def digits (isDigit : Char → Bool) : List Char → Split
  | '_' :: c :: r =>
    if isDigit c then Split.cons '_' (Split.cons c (digits isDigit r)) else ([], '_' :: c :: r)
  | c :: r => if isDigit c then Split.cons c (digits isDigit r) else ([], c :: r)
  | [] => ([], [])

/-- Digits of a kind, at least one and not led by an underscore. -/
def someDigits (isDigit : Char → Bool) (s : List Char) : Option Split :=
  if s.head?.any isDigit then some (digits isDigit s) else none

/-- A scanner after another one. -/
def Split.andThen (p : Split) (f : List Char → Option Split) : Option Split :=
  (f p.2).map fun q => (p.1 ++ q.1, q.2)

/-- A scanner after another one, taken if it fits. -/
def Split.andMaybe (p : Split) (f : List Char → Option Split) : Split := (p.andThen f).getD p

/-- The exponent of a number. -/
def exponent : List Char → Option Split
  | 'e' :: r => tail 'e' r
  | 'E' :: r => tail 'E' r
  | _ => none
where
  /-- The sign and the digits. -/
  tail (e : Char) : List Char → Option Split
    | '+' :: r => (someDigits Char.isDigit r).map (Split.cons e ∘ Split.cons '+')
    | '-' :: r => (someDigits Char.isDigit r).map (Split.cons e ∘ Split.cons '-')
    | r => (someDigits Char.isDigit r).map (Split.cons e)

/-- A point and the digits of a fraction, if it has any. -/
def fraction : List Char → Option Split
  | '.' :: r => some (Split.cons '.' ((someDigits Char.isDigit r).getD ([], r)))
  | _ => none

/-- A decimal number: an integer, perhaps with a fraction and an exponent or the mark of a big
integer. -/
def decimal (s : List Char) : Option Split :=
  match s with
  | '.' :: r => (someDigits Char.isDigit r).map fun p => (Split.cons '.' p).andMaybe exponent
  | _ => (someDigits Char.isDigit s).map fun p =>
    ((p.andThen (literally ['n'])) <|> (p.andThen fraction).map (·.andMaybe exponent)).getD
      (p.andMaybe exponent)

/-- A number with a radix, after a zero and a letter. -/
def radixNumber (isDigit : Char → Bool) (z x : Char) (r : List Char) : Option Split :=
  (someDigits isDigit r).map fun p => Split.cons z (Split.cons x (p.andMaybe (literally ['n'])))

/-- A **number literal** in any radix. -/
def numberLiteral (s : List Char) : Option Split :=
  (match s with
    | '0' :: x :: r =>
      if x = 'x' || x = 'X' then radixNumber isHexDigit '0' x r
      else if x = 'o' || x = 'O' then radixNumber (fun c => '0' ≤ c && c ≤ '7') '0' x r
      else if x = 'b' || x = 'B' then radixNumber (fun c => c == '0' || c == '1') '0' x r
      else none
    | _ => none) <|> decimal s

/-- The pattern of a regular expression and its closing slash; the flag says that the scanner is in
a class, where a slash closes nothing. -/
def regexTail : (inClass : Bool) → List Char → Option Split
  | _, [] => none
  | inClass, '\\' :: c :: r =>
    if c = '\n' then none else (regexTail inClass r).map (Split.cons '\\' ∘ Split.cons c)
  | inClass, c :: r =>
    if c = '\n' || c = '\\' then none
    else if c = '/' && !inClass then some (['/'], r)
    else
      (regexTail (if c = '[' then true else if c = ']' then false else inClass) r).map
        (Split.cons c)

/-- A **regular expression literal** with its flags. Its pattern is not empty. -/
def regexLiteral : List Char → Option Split
  | '/' :: '/' :: _ => none
  | '/' :: '*' :: _ => none
  | '/' :: s =>
    (regexTail false s).map fun p =>
      Split.cons '/' (p.1 ++ p.2.takeWhile Char.isLower, p.2.dropWhile Char.isLower)
  | _ => none

/-- An escape in a template. -/
def escape : List Char → Option Split
  | '\\' :: 'x' :: a :: b :: r =>
    if [a, b].all isHexDigit then some (['\\', 'x', a, b], r) else none
  | '\\' :: 'u' :: '\x7b' :: r =>
    match (someDigits isHexDigit r : Option Split) with
    | some (ds, '\x7d' :: r) => some ('\\' :: 'u' :: '\x7b' :: ds ++ ['\x7d'], r)
    | _ => none
  | '\\' :: 'u' :: a :: b :: c :: d :: r =>
    if [a, b, c, d].all isHexDigit then some (['\\', 'u', a, b, c, d], r) else none
  | '\\' :: '\r' :: '\n' :: r => some (['\\', '\r', '\n'], r)
  | '\\' :: c :: r => if c = 'x' || c = 'u' then none else some (['\\', c], r)
  | _ => none

/-- The characters of a template up to its end, an escape or a substitution. -/
def templateSpan : List Char → Split
  | '$' :: '\x7b' :: r => ([], '$' :: '\x7b' :: r)
  | c :: r => if c = '\x60' || c = '\\' then ([], c :: r) else Split.cons c (templateSpan r)
  | [] => ([], [])

/-- A scanner that takes at least one character. -/
def nonempty (p : Split) : Option Split := if p.1.isEmpty then none else some p

/-- The text between the elements of markup. -/
def markupText (s : List Char) : Option Split :=
  nonempty (s.span fun c => c ∉ ['<', '>', '\x7b', '\x7d', '&'])

/-- A character reference of markup, by name or by number. -/
def markupReference : List Char → Option Split
  | '&' :: r =>
    let name := r.span fun c => c.isAlphanum || c == '#'
    match name.2 with
    | ';' :: rest => if name.1.isEmpty then none else some ('&' :: name.1 ++ [';'], rest)
    | _ => none
  | _ => none

/-- The quoted value of an attribute of markup, in which a backslash is a character like any
other. -/
def markupString : List Char → Option Split
  | q :: r =>
    if q = '\'' || q = '"' then
      let body := r.span (· != q)
      match body.2 with
      | c :: rest => some (q :: body.1 ++ [c], rest)
      | [] => none
    else none
  | [] => none

/-- The rest of the line. -/
def restOfLine (s : List Char) : Split := s.span fun c => !isLineEnd c

/-- A comment of HTML, opening or closing, which runs to the end of its line. -/
def htmlComment : List Char → Option Split
  | '<' :: '!' :: '-' :: '-' :: r =>
    some ('<' :: '!' :: '-' :: '-' :: (restOfLine r).1, (restOfLine r).2)
  | '-' :: '-' :: '>' :: r => some ('-' :: '-' :: '>' :: (restOfLine r).1, (restOfLine r).2)
  | _ => none

/-- The line that names the interpreter of a script. -/
def interpreterLine : List Char → Option Split
  | '#' :: '!' :: r => some ('#' :: '!' :: (restOfLine r).1, (restOfLine r).2)
  | _ => none

end ImportLint.Script

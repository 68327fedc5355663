import ImportLint.Report.Violation
import ImportLint.Text.Wrap

/-!
# Snippets

A diagnostic drawn beside its source: the lines of the labelled span and one more on either side,
each with its number. A span on one line is underlined, and the label hangs from the middle of the
line; a span over several lines is bracketed at its left.
-/

namespace ImportLint

/-- A line of a source text. -/
structure SourceLine where
  number : Nat
  /-- How many bytes come before the line. -/
  offset : Nat
  text : List Char
  /-- How many bytes the line has, with its end. -/
  width : Nat
  deriving DecidableEq, Repr

namespace SourceLine

/-- Number lines, each of which ends with a newline. -/
def ofPieces (number offset : Nat) : List (List Char) → List SourceLine
  | [] => []
  | text :: rest =>
    let width := Utf8.size text + 1
    ⟨number, offset, (stripSuffix? ['\x0d'] text).getD text, width⟩ ::
      ofPieces (number + 1) (offset + width) rest

/-- The lines of a source text. -/
def ofSource (source : List Char) : List SourceLine :=
  let lines := pieces '\n' source
  ofPieces 1 0 (if lines.getLast? == some [] then lines.dropLast else lines)

/-- Whether the byte at an offset is in a line. -/
def covers (l : SourceLine) (offset : Nat) : Bool :=
  l.offset ≤ offset && offset < l.offset + l.width

/-- The width of a tabulator stop. -/
def tabWidth : Nat := 4

/-- A text with blanks for tabulators, from a column on. -/
def expand (column : Nat) : List Char → List Char
  | [] => []
  | c :: r =>
    let cell := if c = '\t' then List.replicate (tabWidth - column % tabWidth) ' ' else [c]
    cell ++ expand (column + cell.length) r

/-- The characters of a text that are in its first bytes. -/
def takeBytes (n : Nat) : List Char → List Char
  | [] => []
  | c :: r => if n = 0 then [] else c :: takeBytes (n - c.utf8Size) r

/-- The column where an offset stands. -/
def columnAt (l : SourceLine) (offset : Nat) : Nat :=
  (expand 0 (takeBytes (offset - l.offset) l.text)).length +
    if Utf8.size l.text < offset - l.offset then 1 else 0

end SourceLine

/-- A repeated character. -/
def repeated (n : Nat) (c : Char) : String := String.ofList (List.replicate n c)

namespace Diagnostic

/-- The offset of the last byte of the labelled span. -/
def lastOffset (d : Diagnostic) : Nat := d.offset + (d.length - 1)

/-- The lines that are drawn. -/
def shownLines (d : Diagnostic) (lines : List SourceLine) : List SourceLine :=
  let numbers := (lines.filter fun l => l.covers d.offset || l.covers d.lastOffset).map (·.number)
  let first := numbers.head?.getD 1
  let last := numbers.getLast?.getD 1
  lines.filter fun l => first ≤ l.number + 1 && l.number ≤ last + 1

/-- What is drawn below a line that holds the whole span: the underline and the label. -/
def underline (d : Diagnostic) (l : SourceLine) : List String :=
  let start := l.columnAt d.offset
  let stop := if d.length = 0 then start + 1 else max (l.columnAt (d.offset + d.length)) (start + 1)
  let middle := (start + stop) / 2
  let mark := if d.length = 0 then "▲" else "┬"
  [repeated start ' ' ++ repeated (middle - start) '─' ++ mark ++ repeated (stop - middle - 1) '─',
    repeated middle ' ' ++ "╰── " ++ d.label]

/-- What is drawn at the left of a line, where the span is on several. -/
def bracket (d : Diagnostic) (l : SourceLine) : String :=
  if l.covers d.offset then "╭─▶ "
  else if l.covers d.lastOffset then "├─▶ "
  else if d.offset < l.offset && l.offset ≤ d.lastOffset then "│   "
  else "    "

/-- A line with its number, and what belongs below it. -/
def drawLine (d : Diagnostic) (numberWidth : Nat) (isSpread : Bool)
    (l : SourceLine) : List String :=
  let number := Decimal.numeral l.number
  let padding := repeated (numberWidth - number.length) ' '
  let numbered := s!" {padding}{number} │ "
  let unnumbered := " " ++ repeated numberWidth ' ' ++ " · "
  let text := String.ofList (SourceLine.expand 0 l.text)
  if isSpread then
    (numbered ++ d.bracket l ++ text) ::
      (if l.covers d.lastOffset then [s!"{unnumbered}╰──── {d.label}"] else [])
  else (numbered ++ text) ::
    (if l.covers d.offset then (d.underline l).map (unnumbered ++ ·) else [])

/-- The frame of source lines around the labelled span. -/
def frame (d : Diagnostic) (citation : String) (source : List Char) : List String :=
  let shown := d.shownLines (SourceLine.ofSource source)
  let isSpread := shown.any fun l => l.covers d.offset && !l.covers d.lastOffset
  let numberWidth := (shown.getLast?.map fun l => (Decimal.digits l.number).length).getD 1
  let indent := repeated (numberWidth + 2) ' '
  [s!"{indent}╭─[{citation}]"] ++ shown.flatMap (d.drawLine numberWidth isSpread) ++
    [s!"{indent}╰────"]

/-- The width of the page that texts are wrapped to. -/
def pageWidth : Nat := 80

/-- A text wrapped to a width after a mark, with another mark before each further line. -/
def marked (width : Nat) (first further : String) (text : String) : List String :=
  match wrap (width - first.length) text.toList with
  | [] => []
  | line :: lines =>
    (first ++ String.ofList line) :: lines.map fun line => further ++ String.ofList line

/-- A diagnostic drawn beside its source. -/
def draw (d : Diagnostic) (citation : String) (source : List Char) : List String :=
  marked (pageWidth - 2) "  × " "  │ " d.message ++ d.frame citation source ++
    (d.help.map (marked (pageWidth - 4) "  help: " "        ")).getD []

end Diagnostic

end ImportLint

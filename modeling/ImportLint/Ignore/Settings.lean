import ImportLint.Text.Pieces
import ImportLint.Text.Utf8

/-!
# The settings of git

The settings of git may name the file with the user's own ignore rules. They are not read in full:
the setting is looked for at the start of each line, in whatever section, and the first line that
has it decides. It is

    ^\s*excludesfile\s*=\s*"?\s*(\S+?)\s*"?\s*$

as a regular expression on bytes, in upper or lower case, where white space may go over the ends of
lines.
-/

namespace ImportLint.Ignore.Settings

/-- The byte at the end of a line. -/
def lineEnd : UInt8 := 10

/-- The byte between a setting and its value. -/
def equals : UInt8 := 61

/-- The byte on both sides of a value in quotes. -/
def quote : UInt8 := 34

/-- Whether a byte is white space. -/
def isSpace (b : UInt8) : Bool := (9 ≤ b && b ≤ 13) || b == 32

/-- A byte as a small letter, if it is a letter. -/
def lower (b : UInt8) : UInt8 := if 65 ≤ b && b ≤ 90 then b + 32 else b

/-- The name of the setting. -/
def key : List UInt8 := Utf8.encode "excludesfile".toList

/-- Take the name of the setting, in upper or lower case, off the front of a text. -/
def stripKey? (s : List UInt8) : Option (List UInt8) :=
  if (s.take key.length).map lower = key then some (s.drop key.length) else none

/-- Some bytes as one word, if there are any and none is white space. -/
def word? (s : List UInt8) : Option (List UInt8) :=
  if s.isEmpty || s.any isSpace then none else some s

/-- The word that makes up a line but for white space and a quote at the end. The shortest word is
taken: the last quote belongs to it only if there is no word without. -/
def wordOnLine? (s : List UInt8) : Option (List UInt8) :=
  let line := dropEndWhile isSpace (s.takeWhile (· != lineEnd))
  ((stripSuffix? [quote] line).bind fun front => word? (dropEndWhile isSpace front)).or (word? line)

/-- The value at the start of a text. A quote before it is no part of it, unless there is no value
otherwise. -/
def value? (s : List UInt8) : Option (List UInt8) :=
  let s := s.dropWhile isSpace
  ((stripPrefix? [quote] s).bind fun r => wordOnLine? (r.dropWhile isSpace)).or (wordOnLine? s)

/-- The value of the setting, if a text starts with it. -/
def setting? (s : List UInt8) : Option (List UInt8) := do
  let s ← stripKey? (s.dropWhile isSpace)
  let s ← stripPrefix? [equals] (s.dropWhile isSpace)
  value? s

/-- A text from the start of each line but the first. -/
def laterLines : List UInt8 → List (List UInt8)
  | [] => []
  | b :: s => if b = lineEnd then s :: laterLines s else laterLines s

/-- The path of the file with the user's own ignore rules as the settings have it, if they do and it
is text. -/
def excludesFile? (settings : List UInt8) : Option (List Char) :=
  ((settings :: laterLines settings).findSome? setting?).bind Utf8.decode?

end ImportLint.Ignore.Settings

import ImportLint.Ignore.Pattern
import ImportLint.Text.Pieces

/-!
# Ignore rules

An ignore file has a rule on each line, about the paths below a directory. The last rule that
matches a path decides: it ignores the path or, after an exclamation mark, keeps it. A rule with a
slash in it matches whole paths, one without matches the last name of a path; a rule that ends with
a slash counts for directories only.
-/

namespace ImportLint.Ignore

/-- A rule. -/
structure Rule where
  keeps : Bool
  onlyDirectories : Bool
  pattern : List Token
  deriving Repr

/-- What rules say about a path. -/
inductive Verdict where
  | ignored
  | kept
  deriving DecidableEq, Repr

/-- The characters that count as blanks at the end of a rule. -/
def isBlank (c : Char) : Bool :=
  let n := c.toNat
  (9 ≤ n && n ≤ 13) || (0x2000 ≤ n && n ≤ 0x200A) ||
    [0x20, 0x85, 0xA0, 0x1680, 0x2028, 0x2029, 0x202F, 0x205F, 0x3000].contains n

/-- A line without its blanks at the end, unless the last of them is escaped. -/
def trim (line : List Char) : List Char :=
  if (stripSuffix? ['\\', ' '] line).isSome then line else dropEndWhile isBlank line

/-- The pattern of a rule without the slash at its end, which may be escaped, and whether there is
one. -/
def cutSlash (s : List Char) : List Char × Bool :=
  match stripSuffix? ['\\', '/'] s, stripSuffix? ['/'] s with
  | some s, _ => (s, true)
  | none, some s => (s, true)
  | none, none => (s, false)

/-- The full pattern of a rule: one without a slash may match at any depth, and one for all below a
directory does not match the directory. -/
def fullPattern (isAnchored : Bool) (s : List Char) : List Char :=
  let s :=
    if isAnchored || s.contains '/' || s == ['*', '*'] then s else ['*', '*', '/'] ++ s
  if (stripSuffix? ['/', '*', '*'] s).isSome then s ++ ['/', '*'] else s

/-- The rule of a trimmed line. -/
def ruleOf? (line : List Char) : Option Rule :=
  let (keeps, isAnchored, s) :=
    match line with
    | '\\' :: '!' :: r => (false, false, '!' :: r)
    | '\\' :: '#' :: r => (false, false, '#' :: r)
    | '!' :: '/' :: r => (true, true, r)
    | '!' :: r => (true, false, r)
    | '/' :: r => (false, true, r)
    | r => (false, false, r)
  let (s, onlyDirectories) := cutSlash s
  (tokenise (fullPattern isAnchored s)).map fun pattern => ⟨keeps, onlyDirectories, pattern⟩

/-- Whether a line has no rule. -/
def isRemark (line : List Char) : Bool := line.head? == some '#' || (trim line).isEmpty

/-- The lines of a text, without the ends of lines, up to the first that is no text. -/
def linesOf (content : List UInt8) : List (List Char) :=
  let lines := (pieces 10 content).map fun line => Utf8.decode? ((stripSuffix? [13] line).getD line)
  (lines.takeWhile Option.isSome).filterMap id

/-- The lines of a text without byte order marks at its start. -/
def dropMarks : List (List Char) → List (List Char)
  | line :: rest => line.dropWhile (· == Char.ofNat 0xFEFF) :: rest
  | [] => []

/-- The lines of an ignore file that are rules or should be. -/
def ruleLines (content : List UInt8) : List (List Char) :=
  ((dropMarks (linesOf content)).filter fun line => !isRemark line).map trim

/-- The rules of an ignore file; lines that are no rules are passed over. -/
def rulesOf (content : List UInt8) : List Rule := (ruleLines content).filterMap ruleOf?

/-- Whether each line of an ignore file is a rule where it should be. -/
def isSound (content : List UInt8) : Bool :=
  (ruleLines content).all fun line => (ruleOf? line).isSome

/-- What rules say about a path, if anything. -/
def verdict? (rules : List Rule) (isDirectory : Bool) (path : List UInt8) : Option Verdict :=
  (rules.reverse.find? fun r =>
    (!r.onlyDirectories || isDirectory) && Token.accept r.pattern path).map
    fun r => if r.keeps then .kept else .ignored

end ImportLint.Ignore

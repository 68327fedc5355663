import ImportLint.Glob.Brace
import ImportLint.Glob.Match

/-!
# Glob patterns

A **pattern** is checked when it is made: each of its spellings, with the stars collapsed, must be a
list of tokens. It matches a text if one of its spellings does. A spelling `dir/**`, with no
wildcard in `dir`, also matches whatever lies below `dir`, no segment of which starts with a dot.
-/

namespace ImportLint.Glob

/-- A spelling of a pattern. -/
structure Alternative where
  spelling : List Char
  tokens : List Token
  deriving DecidableEq, Repr

/-- A pattern as written, and what it stands for. -/
structure Pattern where
  text : String
  alternatives : List Alternative
  deriving DecidableEq, Repr

/-- Why a text is no pattern. -/
inductive PatternError where
  | empty
  | invalid (pattern : String) (fault : Fault)
  deriving DecidableEq, Repr

/-- The wording of an error. -/
def PatternError.message : PatternError → String
  | empty => "glob pattern must not be empty"
  | invalid pattern fault => s!"invalid glob pattern `{pattern}`: {fault.message}"

/-- Whether a segment starts with a dot. -/
def isHidden (segment : List Char) : Bool := segment.head? == some '.'

namespace Alternative

/-- Check a spelling. -/
def ofSpelling? (spelling : List Char) : Except Fault Alternative :=
  (tokenise (collapseStars spelling)).map fun tokens => ⟨collapseStars spelling, tokens⟩

/-- The directory below which a spelling covers everything, without its trailing slashes. -/
def directory? (a : Alternative) : Option (List Char) :=
  (stripSuffix? ['/', '*', '*'] a.spelling).bind fun dir =>
    let dir := dropEndWhile (· == '/') dir
    if dir.any fun c => c == '*' || c == '?' || c == '[' then none else some dir

/-- Whether a text lies below a directory, with no segment there that starts with a dot. -/
def isBelow (dir text : List Char) : Bool :=
  match stripPrefix? (dir ++ ['/']) text with
  | some rest => !(pieces '/' rest).any isHidden
  | none => false

/-- Whether a spelling matches a text. -/
def accepts (a : Alternative) (text : List Char) : Bool :=
  Glob.accepts a.tokens text || a.directory?.any fun dir => isBelow dir text

end Alternative

namespace Pattern

/-- Check a pattern. -/
def ofString? (text : String) : Except PatternError Pattern :=
  if text.isEmpty then .error .empty
  else
    match (spellings text.toList).mapM Alternative.ofSpelling? with
    | .ok alternatives => .ok ⟨text, alternatives⟩
    | .error fault => .error (.invalid text fault)

/-- Whether a pattern matches a text. -/
def accepts (p : Pattern) (text : String) : Bool := p.alternatives.any (·.accepts text.toList)

/-- Patterns are equal if they are written alike. -/
instance : BEq Pattern := ⟨fun p q => p.text == q.text⟩

end Pattern

end ImportLint.Glob

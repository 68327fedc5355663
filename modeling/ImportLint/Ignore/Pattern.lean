import ImportLint.Text.Utf8

/-!
# Patterns of ignore files

A pattern is a list of tokens, which match a path byte by byte. A **double star** at the start of a
pattern, at its end or between slashes stands for any directories; other wildcards stay within one
name. Braces hold alternatives, of which the empty ones do not count. A bracket that is never closed
is an ordinary character.
-/

namespace ImportLint.Ignore

/-- The byte that separates names. -/
def slash : UInt8 := 47

/-- A token of a pattern. -/
inductive Token where
  | literal (c : Char)
  /-- One byte of a name. -/
  | any
  /-- Some bytes of a name. -/
  | star
  /-- Some directories at the start. -/
  | leading
  /-- A slash, or some directories between slashes. -/
  | between
  /-- Whatever is in a directory. -/
  | trailing
  | oneOf (negated : Bool) (ranges : List (UInt8 × UInt8))
  | alternatives (branches : List (List Token))
  deriving Repr

namespace Token

/-- The ends of a list. -/
def tails {α : Type} : List α → List (List α)
  | [] => [[]]
  | a :: s => (a :: s) :: tails s

/-- What can be left of a path after some bytes that are no slashes. -/
def afterName : List UInt8 → List (List UInt8)
  | [] => [[]]
  | b :: s => (b :: s) :: (if b == slash then [] else afterName s)

/-- What can be left of a path after a slash of it. -/
def afterSlash : List UInt8 → List (List UInt8)
  | [] => []
  | b :: s => if b == slash then s :: afterSlash s else afterSlash s

mutual

/-- Whether a token stands for nothing at all. -/
def isVoid : Token → Bool
  | alternatives branches => areVoid branches
  | _ => false

/-- Whether tokens stand for nothing at all. -/
def allVoid : List Token → Bool
  | [] => true
  | t :: ts => t.isVoid && allVoid ts

/-- Whether alternatives stand for nothing at all. -/
def areVoid : List (List Token) → Bool
  | [] => true
  | ts :: rest => allVoid ts && areVoid rest

end

mutual

/-- What can be left of a path after a token. -/
def rests (s : List UInt8) : Token → List (List UInt8)
  | literal c =>
    let bytes := String.utf8EncodeChar c
    if bytes.isPrefixOf s then [s.drop bytes.length] else []
  | any =>
    match s with
    | b :: r => if b == slash then [] else [r]
    | [] => []
  | star => afterName s
  | leading => s :: afterSlash s
  | between =>
    match s with
    | b :: r => if b == slash then r :: afterSlash r else []
    | [] => []
  | trailing =>
    match s with
    | b :: r => if b == slash then tails r else []
    | [] => []
  | oneOf negated ranges =>
    match s with
    | b :: r => if ranges.any (fun p => p.1 ≤ b && b ≤ p.2) != negated then [r] else []
    | [] => []
  | alternatives branches => if areVoid branches then [s] else restsOfBranches s branches

/-- What can be left of a path after tokens. -/
def restsOfAll (s : List UInt8) : List Token → List (List UInt8)
  | [] => [s]
  | t :: ts => (rests s t).flatMap fun r => restsOfAll r ts

/-- What can be left of a path after one of some alternatives. -/
def restsOfBranches (s : List UInt8) : List (List Token) → List (List UInt8)
  | [] => []
  | ts :: branches => (if allVoid ts then [] else restsOfAll s ts) ++ restsOfBranches s branches

end

/-- Whether tokens match a path. A double star alone matches any. -/
def accept (ts : List Token) (path : List UInt8) : Bool :=
  match ts with
  | [leading] => true
  | ts => (restsOfAll path ts).any List.isEmpty

end Token

/-! ## Reading patterns -/

/-- The bytes that a range of characters covers, read byte by byte. -/
def byteRanges (range : Char × Char) : List (UInt8 × UInt8) :=
  let low := String.utf8EncodeChar range.1
  let high := String.utf8EncodeChar range.2
  if range.1 = range.2 then low.map fun b => (b, b)
  else
    low.dropLast.map (fun b => (b, b)) ++ [(low.getLast?.getD 0, high.head?.getD 0)] ++
      high.tail.map fun b => (b, b)

/-- The ranges of a class after its first member. A hyphen between two members makes a range of
them, which must not be reversed. -/
def classRanges (last : Char × Char) (inRange : Bool) : List Char → Option (List (Char × Char))
  | [] => some (if inRange then [last, ('-', '-')] else [last])
  | c :: r =>
    if inRange then if last.1 ≤ c then classRanges (last.1, c) false r else none
    else if c = '-' then classRanges last true r
    else (classRanges (c, c) false r).map (last :: ·)

/-- What a bracket opens. -/
inductive Bracket where
  /-- A class and what follows it. -/
  | closed (class_ : Token) (rest : List Char)
  /-- No class, because it is not closed. -/
  | unclosed
  /-- A class with a reversed range. -/
  | reversed

/-- Read what a bracket opens; the first member of a class may be a closing bracket. -/
def bracket (s : List Char) : Bracket :=
  let negated := s.head? == some '!' || s.head? == some '^'
  match (if negated then s.drop 1 else s) with
  | [] => .unclosed
  | first :: r =>
    match classRanges (first, first) false (r.takeWhile (· != ']')), r.dropWhile (· != ']') with
    | none, _ => .reversed
    | some _, [] => .unclosed
    | some ranges, _ :: rest => .closed (.oneOf negated (ranges.flatMap byteRanges)) rest

/-- The alternatives that are being read: the tokens of the last branch, and the branches before it,
each from its end. -/
structure Group where
  branch : List Token := []
  finished : List (List Token) := []

/-- The alternatives of a group, in order. -/
def Group.branches (g : Group) : List (List Token) :=
  (g.branch :: g.finished).reverse.map List.reverse

/-- A group with one more token. -/
def Group.push (t : Token) (g : Group) : Group := { g with branch := t :: g.branch }

/-- A group with its last token replaced for a double star after a slash. -/
def Group.pushDoubleStar (isLast : Bool) (g : Group) : Group :=
  match g.branch with
  | .leading :: _ => g
  | .trailing :: _ => g
  | _ :: ts => { g with branch := (if isLast then .trailing else .between) :: ts }
  | [] => g

/-- Read tokens into the innermost group, with the groups around it; `previous` is the character
before, and the number bounds the characters left. -/
def tokens (group : Group) (outer : List Group) (previous : Option Char) (noClasses : Bool) :
    Nat → List Char → Option (List Token)
  | 0, _ => none
  | _ + 1, [] => if outer.isEmpty then some group.branch.reverse else none
  | n + 1, '?' :: r => tokens (group.push .any) outer (some '?') noClasses n r
  | n + 1, '*' :: '*' :: r =>
    let plain := tokens ((group.push .star).push .star) outer (some '*') noClasses n r
    if group.branch.isEmpty then
      match r with
      | [] => tokens (group.push .leading) outer (some '*') noClasses n []
      | '/' :: r => tokens (group.push .leading) outer (some '/') noClasses n r
      | _ => plain
    else
      if previous != some '/' &&
        (outer.isEmpty || (previous != some ',' && previous != some '\x7b')) then
      plain
    else
      match r with
      | [] => tokens (group.pushDoubleStar true) outer (some '*') noClasses n []
      | '/' :: r => tokens (group.pushDoubleStar false) outer (some '/') noClasses n r
      | c :: r =>
        if !outer.isEmpty && (c == ',' || c == '\x7d') then
          tokens (group.pushDoubleStar true) outer (some '*') noClasses n (c :: r)
        else plain
  | n + 1, '*' :: r => tokens (group.push .star) outer (some '*') noClasses n r
  | n + 1, '\x7b' :: r => tokens {} (group :: outer) (some '\x7b') noClasses n r
  | n + 1, '\x7d' :: r =>
    match outer with
    | [] => none
    | g :: outer => tokens (g.push (.alternatives group.branches)) outer (some '\x7d') noClasses n r
  | n + 1, ',' :: r =>
    if outer.isEmpty then tokens (group.push (.literal ',')) outer (some ',') noClasses n r
    else tokens ⟨[], group.branch :: group.finished⟩ outer (some ',') noClasses n r
  | n + 1, '\\' :: r =>
    match r with
    | [] => none
    | c :: r => tokens (group.push (.literal c)) outer (some c) noClasses n r
  | n + 1, '[' :: r =>
    if noClasses then tokens (group.push (.literal '[')) outer (some '[') noClasses n r
    else
      match bracket r with
      | .closed t rest => tokens (group.push t) outer (some ']') noClasses n rest
      | .unclosed => tokens (group.push (.literal '[')) outer (some '[') true n r
      | .reversed => none
  | n + 1, c :: r => tokens (group.push (.literal c)) outer (some c) noClasses n r

/-- The tokens of a pattern, if its braces match, its ranges are not reversed and no backslash ends
it. -/
def tokenise (s : List Char) : Option (List Token) := tokens {} [] none false (s.length + 1) s

end ImportLint.Ignore

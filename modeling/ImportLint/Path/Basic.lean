import ImportLint.Text.Pieces
import ImportLint.Text.Utf8

/-!
# Paths

A **path** is any string of bytes, not only text, and paths are compared and taken apart by their
components: repeated slashes, dots between slashes and a slash at the end do not count. Putting
paths together works on the bytes and leaves them as they are.
-/

namespace ImportLint

/-- A path in a file system. -/
structure Path where
  bytes : List UInt8
  deriving DecidableEq, Repr, Inhabited

namespace Path

/-- The byte that separates components. -/
def slash : UInt8 := 47

/-- The byte of a dot. -/
def dot : UInt8 := 46

/-- A text as a path. -/
def ofString (s : String) : Path := ⟨Utf8.encode s.toList⟩

/-- A path for the reader, with replacement characters where it is no text. -/
def display (p : Path) : String := String.ofList (Utf8.decodeLossy p.bytes)

/-- Whether a path does not depend on the directory it is read in. -/
def isAbsolute (p : Path) : Bool := p.bytes.head? == some slash

/-- A component of a path. -/
inductive Component where
  | root
  /-- The directory itself, which counts only at the start of a path. -/
  | here
  | parent
  | named (name : List UInt8)
  deriving DecidableEq, Repr

/-- The order of components: by kind, and names by their bytes. -/
def Component.compare : Component → Component → Ordering
  | named x, named y => compareOfLessAndEq x y
  | x, y => Ord.compare (rank x) (rank y)
where
  /-- The place of a kind. -/
  rank : Component → Nat
    | root => 0
    | here => 1
    | parent => 2
    | named _ => 3

/-- What lies between the slashes of a path, as it is written. -/
def segments (p : Path) : List (List UInt8) := pieces slash p.bytes

/-- Whether a segment says nothing, except at the start of a path. -/
def isIdle (segment : List UInt8) : Bool := segment.isEmpty || segment == [dot]

/-- A segment as a component, if it is one wherever it stands. -/
def component? (segment : List UInt8) : Option Component :=
  if isIdle segment then none else if segment == [dot, dot] then some .parent else
    some (.named segment)

/-- The components of a path. -/
def components (p : Path) : List Component :=
  (if p.isAbsolute then [.root] else if p.segments.head? == some [dot] then [.here] else []) ++
    p.segments.filterMap component?

/-- Compare lists of components. -/
def compareComponents : List Component → List Component → Ordering
  | [], [] => .eq
  | [], _ :: _ => .lt
  | _ :: _, [] => .gt
  | x :: xs, y :: ys => (x.compare y).then (compareComponents xs ys)

/-- Compare paths by their components. -/
def compare (p q : Path) : Ordering := compareComponents p.components q.components

/-- Read a path in a directory. -/
def join (dir p : Path) : Path :=
  if p.isAbsolute then p
  else if dir.bytes.isEmpty || dir.bytes.getLast? == some slash then ⟨dir.bytes ++ p.bytes⟩
  else ⟨dir.bytes ++ slash :: p.bytes⟩

/-- A path below another is written with a slash, as in `dir / file`. -/
instance : Div Path := ⟨join⟩

/-- The path of segments, without those at its end that say nothing. -/
def ofSegments (segments : List (List UInt8)) : Path :=
  ⟨joinPieces slash (dropEndWhile isIdle segments)⟩

/-- What is left of segments after the components that are given, which they must start with. -/
def stripSegments? : List Component → List (List UInt8) → Option (List (List UInt8))
  | [], segments => some (segments.dropWhile isIdle)
  | c :: cs, segments =>
    match segments.dropWhile isIdle with
    | [] => none
    | s :: rest => if component? s = some c then stripSegments? cs rest else none

/-- A path relative to a directory that it starts with, component by component; the rest is kept as
it is written, from its first component to its last. -/
def stripPrefix? (p dir : Path) : Option Path :=
  match dir.components, p.components with
  | .root :: cs, .root :: _ => (stripSegments? cs p.segments).map ofSegments
  | .here :: cs, .here :: _ => (stripSegments? cs p.segments).map ofSegments
  | [], _ => some p
  | .root :: _, _ | .here :: _, _ | _, .root :: _ | _, .here :: _ => none
  | cs, _ => (stripSegments? cs p.segments).map ofSegments

/-- The name of the file that a path leads to. -/
def fileName? (p : Path) : Option (List UInt8) :=
  match p.components.getLast? with
  | some (.named name) => some name
  | _ => none

/-- The extension of a file name: what follows its last dot, unless it starts with that dot. -/
def extensionOfName? (name : List UInt8) : Option (List UInt8) :=
  let tail := name.reverse.takeWhile (· != dot)
  match name.reverse.dropWhile (· != dot) with
  | _ :: _ :: _ => some tail.reverse
  | _ => none

/-- The extension of the file that a path leads to. -/
def extension? (p : Path) : Option (List UInt8) := p.fileName?.bind extensionOfName?

/-- The path without its last component; `none` for a root and for the empty path. -/
def parent? (p : Path) : Option Path :=
  match p.components.getLast? with
  | none | some .root => none
  | some .here => some ⟨[]⟩
  | some _ =>
    let rest := (dropEndWhile isIdle p.segments).dropLast
    if p.isAbsolute && rest.all isIdle then some ⟨[slash]⟩
    else if p.components.head? == some .here && rest.all isIdle then some ⟨[dot]⟩
    else some (ofSegments rest)

/-- A path as a text, with slashes for backslashes and without one leading `./`. -/
def normalize (p : Path) : List Char :=
  let s := (Utf8.decodeLossy p.bytes).map fun c => if c = '\\' then '/' else c
  (ImportLint.stripPrefix? ['.', '/'] s).getD s

end Path

end ImportLint

import ImportLint.FileTree.Basic

/-!
# Paths in a file tree

A path is followed name by name. Whatever is followed further must be a directory, be it only by a
slash at the end of the path; a link is replaced by its target, a limited number of times.
-/

namespace ImportLint

namespace FileTree

/-- Two dots, the name of the directory above. -/
def above : FileName := [Path.dot, Path.dot]

/-- The place that segments lead to from a place, through a number of links at most. -/
def follow (root : FileTree) (links : Nat) (here : List FileName) :
    List (List UInt8) → Option (List FileName)
  | [] => if (root.at? here).isSome then some here else none
  | s :: rest =>
    match root.at? here with
    | some (directory ms) =>
      if Path.isIdle s then follow root links here rest
      else if s == above then follow root links here.dropLast rest
      else
        match find? s ms with
        | none => none
        | some (link target) =>
          match links with
          | 0 => none
          | n + 1 =>
            follow root n (if target.isAbsolute then [] else here) (target.segments ++ rest)
        | some _ => follow root links (here ++ [s]) rest
    | _ => none
termination_by segments => (links, segments.length)

/-- How many links a path may lead through. -/
def maxLinks : Nat := 40

/-- The place that an absolute path leads to. -/
def locate? (root : FileTree) (p : Path) : Option (List FileName) :=
  root.follow maxLinks [] p.segments

/-- What an absolute path leads to. -/
def resolve? (root : FileTree) (p : Path) : Option FileTree :=
  (root.locate? p).bind fun place => root.at? place

/-- The content of the file that an absolute path leads to. -/
def read? (root : FileTree) (p : Path) : Option (List UInt8) :=
  match root.resolve? p with
  | some (file content) => some content
  | _ => none

/-- The content of the file that an absolute path leads to, if it is text. -/
def readText? (root : FileTree) (p : Path) : Option (List Char) := (root.read? p).bind Utf8.decode?

end FileTree

/-- What a program can see of the machine that it runs on. -/
structure Machine where
  /-- The root directory. -/
  files : FileTree
  /-- The absolute path that relative paths are read in. -/
  workingDirectory : Path
  /-- The variables of the environment. -/
  environment : List (String × String)
  deriving Repr

namespace Machine

/-- The value of a variable of the environment. -/
def valueOf? (m : Machine) (name : String) : Option String :=
  (m.environment.find? (·.1 == name)).map (·.2)

/-- A path with its directory spelled out. -/
def absolute (m : Machine) (p : Path) : Path := m.workingDirectory / p

/-- What a path leads to. -/
def resolve? (m : Machine) (p : Path) : Option FileTree :=
  if p.bytes.isEmpty then none else m.files.resolve? (m.absolute p)

/-- The content of the file that a path leads to, if it is text. -/
def readText? (m : Machine) (p : Path) : Option (List Char) :=
  if p.bytes.isEmpty then none else m.files.readText? (m.absolute p)

/-- Whether a path leads to a file. -/
def isFile (m : Machine) (p : Path) : Bool :=
  match m.resolve? p with
  | some (.file _) => true
  | _ => false

/-- The home directory of the user. -/
def home? (m : Machine) : Option Path := (m.valueOf? "HOME").map Path.ofString

end Machine

end ImportLint

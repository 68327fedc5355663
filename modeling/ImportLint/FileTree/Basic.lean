import ImportLint.Path.Basic

/-!
# File trees

Files, directories and symbolic links as one tree. A place in the tree is the list of names on the
way to it from the root.
-/

namespace ImportLint

/-- The name of a member of a directory. -/
abbrev FileName := List UInt8

/-- The file name that a text is. -/
def fileName (s : String) : FileName := Utf8.encode s.toList

/-- What a name stands for. -/
inductive FileTree where
  | file (content : List UInt8)
  /-- A symbolic link, to be read in the directory it is in. -/
  | link (target : Path)
  | directory (members : List (FileName × FileTree))
  deriving Repr

namespace FileTree

/-- What a name stands for among members. -/
def find? (name : FileName) (members : List (FileName × FileTree)) : Option FileTree :=
  (members.find? (·.1 == name)).map (·.2)

/-- The members of a directory. -/
def members : FileTree → List (FileName × FileTree)
  | directory ms => ms
  | _ => []

/-- What is at a place. -/
def at? : List FileName → FileTree → Option FileTree
  | [], t => some t
  | n :: ns, directory ms => (find? n ms).bind (at? ns)
  | _ :: _, _ => none

/-- Members with one name standing for something else, at the end if the name is new. -/
def setMember (name : FileName) (f : Option FileTree → FileTree) :
    List (FileName × FileTree) → List (FileName × FileTree)
  | [] => [(name, f none)]
  | m :: ms => if m.1 == name then (name, f (some m.2)) :: ms else m :: setMember name f ms

/-- A tree with something else at a place, in directories that are made where there are none. -/
def put (t : FileTree) (place : List FileName) (content : FileTree) : FileTree :=
  match place with
  | [] => content
  | n :: ns =>
    directory (setMember n (fun old => put (old.getD (directory [])) ns content) t.members)

end FileTree

end ImportLint

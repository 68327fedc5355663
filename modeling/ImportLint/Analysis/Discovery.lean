import ImportLint.Analysis.Basic
import ImportLint.FileTree.Resolve
import ImportLint.Ignore.Rules
import ImportLint.Ignore.Settings

/-!
# Discovering files

The files of an analysis are those below its root that an extractor reads. The walk enters no
directory and takes no file that is called `.git`, is excluded, or is ignored; links to directories
are not entered, links to files are files. An excluded directory is one that a glob matches with or
without a slash at the end.

Ignore files say what is ignored below the directory they are in, up to the root of all directories.
Rules of `.ignore` files come before those of `.gitignore` files, these before those of
`.git/info/exclude`, and last come those of the user; within a kind the nearest directory that says
something decides. The user's own rules are in the file that the settings of git name as
`core.excludesFile`, and in `git/ignore` if none does.
-/

namespace ImportLint

/-- Whether a path relative to the root is excluded. -/
def isExcluded (exclude : List Glob.Pattern) (relative : List Char) (isDirectory : Bool) : Bool :=
  !relative.isEmpty && exclude.any fun p =>
    p.accepts (String.ofList relative) ||
      (isDirectory && p.accepts (String.ofList (relative ++ ['/'])))

/-- The names on the way to a place as a path. -/
def pathOfNames (names : List FileName) : Path := ⟨joinPieces Path.slash names⟩

/-- A kind of ignore file. -/
inductive RuleSource where
  | own
  | git
  | gitExclude
  deriving DecidableEq, Repr

namespace RuleSource

/-- The kinds, from the one that comes first on. -/
def all : List RuleSource := [own, git, gitExclude]

/-- The file of a kind, seen from the directory that it counts for. -/
def file : RuleSource → List FileName
  | own => [fileName ".ignore"]
  | git => [fileName ".gitignore"]
  | gitExclude => [fileName ".git", fileName "info", fileName "exclude"]

/-- Whether files of a kind count. -/
def counts (respectGitignore : Bool) : RuleSource → Bool
  | own => true
  | git | gitExclude => respectGitignore

/-- The content of the file of a kind for a directory; none at all is as good as empty. -/
def content (files : FileTree) (respectGitignore : Bool)
    (directory : List FileName) (s : RuleSource) : List UInt8 :=
  if s.counts respectGitignore then
    match (files.follow FileTree.maxLinks directory s.file).bind fun place => files.at? place with
    | some (.file content) => content
    | _ => []
  else []

end RuleSource

/-- The rules that are found in a directory. -/
structure DirectoryRules where
  /-- How many names lead to the directory. -/
  depth : Nat
  own : List Ignore.Rule
  git : List Ignore.Rule
  gitExclude : List Ignore.Rule

namespace DirectoryRules

/-- The rules of one kind. -/
def ofSource (d : DirectoryRules) : RuleSource → List Ignore.Rule
  | .own => d.own
  | .git => d.git
  | .gitExclude => d.gitExclude

/-- What the rules of one kind say about a place below the directory. -/
def verdict? (s : RuleSource) (place : List FileName) (isDirectory : Bool) (d : DirectoryRules) :
    Option Ignore.Verdict :=
  Ignore.verdict? (d.ofSource s) isDirectory (joinPieces Path.slash (place.drop d.depth))

/-- The rules that are found in a directory. -/
def ofDirectory (files : FileTree) (respectGitignore : Bool) (directory : List FileName) :
    DirectoryRules :=
  let rules (s : RuleSource) := Ignore.rulesOf (s.content files respectGitignore directory)
  ⟨directory.length, rules .own, rules .git, rules .gitExclude⟩

/-- Whether all lines of the ignore files of a directory that should be rules are. -/
def areSound (files : FileTree) (respectGitignore : Bool) (directory : List FileName) : Bool :=
  RuleSource.all.all fun s => Ignore.isSound (s.content files respectGitignore directory)

end DirectoryRules

/-- What decides about the places that a walk comes upon. -/
structure Criteria where
  /-- The machine's files. -/
  files : FileTree
  /-- The root of the walk as it is written. -/
  root : Path
  /-- The place of the root. -/
  base : List FileName
  workingDirectory : Path
  exclude : List Glob.Pattern
  respectGitignore : Bool
  /-- The user's own rules. -/
  global : List Ignore.Rule

namespace Criteria

/-- The path that the user's own rules are compared with: the path that is walked, without the
working directory if it starts with that. -/
def globalPath (c : Criteria) (names : List FileName) : List UInt8 :=
  match ImportLint.stripPrefix? c.workingDirectory.bytes (c.root / pathOfNames names).bytes with
  | some rest => (ImportLint.stripPrefix? [Path.slash] rest).getD rest
  | none => (c.root / pathOfNames names).bytes

/-- What all ignore rules together say, given those of the directories from the nearest on. -/
def verdict? (c : Criteria) (rules : List DirectoryRules) (names : List FileName)
    (isDirectory : Bool) : Option Ignore.Verdict :=
  (RuleSource.all.findSome? fun s =>
    rules.findSome? (DirectoryRules.verdict? s (c.base ++ names) isDirectory)).or
    (Ignore.verdict? c.global isDirectory (c.globalPath names))

/-- Whether the walk passes over what it comes upon. -/
def skips (c : Criteria) (rules : List DirectoryRules) (names : List FileName)
    (isDirectory : Bool) : Bool :=
  c.verdict? rules names isDirectory == some .ignored || names.getLast? == some (fileName ".git") ||
    isExcluded c.exclude (pathOfNames names).normalize isDirectory

/-- The rules of a directory below the root. -/
def rulesAt (c : Criteria) (names : List FileName) : DirectoryRules :=
  .ofDirectory c.files c.respectGitignore (c.base ++ names)

end Criteria

namespace FileTree

/-- Whether something is a directory itself, and no link to one. -/
def isDirectory : FileTree → Bool
  | directory _ => true
  | _ => false

mutual

/-- The places of all that is no directory, below what names lead to. -/
def walk (c : Criteria) (rules : List DirectoryRules) (names : List FileName) :
    FileTree → List (List FileName)
  | directory ms => walkMembers c (c.rulesAt names :: rules) names ms
  | _ => [names]

/-- The places of all that is no directory, among members of what names lead to. -/
def walkMembers (c : Criteria) (rules : List DirectoryRules) (names : List FileName) :
    List (FileName × FileTree) → List (List FileName)
  | [] => []
  | (n, t) :: ms =>
    (if c.skips rules (names ++ [n]) t.isDirectory then [] else walk c rules (names ++ [n]) t) ++
      walkMembers c rules names ms

end

end FileTree

namespace Machine

/-- The directory with the user's settings of programs. -/
def settingsDirectory? (m : Machine) : Option Path :=
  let configured :=
    match m.valueOf? "XDG_CONFIG_HOME" with
    | some dir => if dir.isEmpty then none else some (Path.ofString dir)
    | none => none
  configured.or (m.home?.map (· / Path.ofString ".config"))

/-- The files with the user's settings of git, from the one that comes first on. -/
def gitSettings (m : Machine) : List Path :=
  (m.home?.map (· / Path.ofString ".gitconfig")).toList ++
    (m.settingsDirectory?.map (· / Path.ofString "git/config")).toList

/-- A text with the home directory of the user in the place of each tilde. -/
def expandTilde (m : Machine) (s : List Char) : List Char :=
  match m.valueOf? "HOME" with
  | some home => s.flatMap fun c => if c = '~' then home.toList else [c]
  | none => s

/-- The file with the user's own ignore rules that a file of settings names. -/
def excludesFile? (m : Machine) (settings : Path) : Option Path :=
  match m.resolve? settings with
  | some (.file content) =>
    (Ignore.Settings.excludesFile? content).map fun s => ⟨Utf8.encode (m.expandTilde s)⟩
  | _ => none

/-- The file with the user's own ignore rules: the one that the settings of git name, or else the
one beside them. -/
def globalIgnoreFile? (m : Machine) : Option Path :=
  (m.gitSettings.findSome? m.excludesFile?).or
    (m.settingsDirectory?.map (· / Path.ofString "git/ignore"))

/-- The user's own ignore rules. -/
def globalRules (m : Machine) : List Ignore.Rule :=
  match m.globalIgnoreFile?.bind m.resolve? with
  | some (.file content) => Ignore.rulesOf content
  | _ => []

end Machine

/-- The directories above a place, from the nearest on. -/
def directoriesAbove (place : List FileName) : List (List FileName) :=
  (List.range place.length).reverse.map place.take

namespace Analyzer

/-- What decides about the places that the walk of an analyzer comes upon. -/
def criteria (a : Analyzer) (m : Machine) (base : List FileName) : Criteria where
  files := m.files
  root := a.root
  base := base
  workingDirectory := m.workingDirectory
  exclude := a.exclude
  respectGitignore := a.config.respectGitignore
  global := m.globalRules

/-- Whether the analyzer takes a path that the walk has come upon. -/
def takes (a : Analyzer) (m : Machine) (file : Path) : Bool :=
  m.isFile file && (a.extractorFor? file).isSome

/-- The order of files. -/
def inOrder (p q : Path) : Bool := (p.compare q).isLE

/-- The path of a place below the root. -/
def pathAt (a : Analyzer) (names : List FileName) : Path :=
  if names.isEmpty then a.root else a.root / pathOfNames names

/-- The files to analyze, in the order of their paths. -/
def discover (a : Analyzer) (m : Machine) : Except AnalysisError (List Path) :=
  match m.files.locate? a.root with
  | none => .error .unwalkable
  | some base =>
    let c := a.criteria m base
    let above := directoriesAbove base
    let tree := (m.files.at? base).getD (.directory [])
    if tree.isDirectory &&
      !above.all (DirectoryRules.areSound m.files a.config.respectGitignore) then
      .error .unwalkable
    else
      let rules := above.map (DirectoryRules.ofDirectory m.files a.config.respectGitignore)
      .ok ((((tree.walk c rules []).map a.pathAt).filter (a.takes m)).mergeSort inOrder)

end Analyzer

end ImportLint

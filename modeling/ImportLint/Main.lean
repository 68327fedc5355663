import ImportLint.Command.Run

/-!
# The command line

The command runs on a picture of the machine that is taken beforehand: the configuration files that
may matter, git's settings and ignore rules of the user, the tree below the root of the analysis,
and the ignore files above it.
-/

namespace ImportLint.Machine

/-- A place as the text of a path. -/
def textOfPlace (place : List FileName) : String := "/" ++ (pathOfNames place).display

/-- The place that a path of the machine leads to, with links resolved. -/
def realPlace? (text : String) : IO (Option (List FileName)) := do
  try
    let real ← IO.FS.realPath text
    if ← real.pathExists then
      pure (some ((Path.ofString real.toString).segments.filter fun s => !Path.isIdle s))
    else pure none
  catch _ => pure none

/-- Take up the directories and links that segments lead through from a place. -/
def takePath (t : FileTree) (here : List FileName) :
    List (List UInt8) → IO (FileTree × Option (List FileName))
  | [] => pure (t, some here)
  | s :: rest => do
    if Path.isIdle s then takePath t here rest
    else if s == FileTree.above then takePath t here.dropLast rest
    else
      let child := here ++ [s]
      match ← realPlace? (textOfPlace child) with
      | none => pure (t, none)
      | some real =>
        let t :=
          if real == child then t else
            t.put child (.link ⟨Path.slash :: joinPieces Path.slash real⟩)
        let isDirectory ← (show IO Bool from do
          try
            let info ← IO.FS.realPath (textOfPlace real) >>= (·.metadata)
            pure (info.type == .dir)
          catch _ => pure false)
        let t := if isDirectory && (t.at? real).isNone then t.put real (.directory []) else t
        takePath t real rest

/-- Take up the file at a place, if there is one. -/
def takeFile (t : FileTree) (place : List FileName) : IO FileTree := do
  try
    let content ← IO.FS.readBinFile (textOfPlace place)
    pure (t.put place (.file content.toList))
  catch _ => pure t

/-- Take up the file that a path leads to. -/
def takeFileAt (m : Machine) (file : Path) : IO Machine := do
  let (t, place) ← takePath m.files [] (m.absolute file).segments
  match place with
  | some place =>
    match t.at? place with
    | some (.directory _) => pure { m with files := t }
    | _ => pure { m with files := ← takeFile t place }
  | none => pure { m with files := t }

/-- Whether the content of a file can matter. -/
def isOfInterest (name : FileName) : Bool :=
  match Analyzer.extensionOf? ⟨name⟩ with
  | some e => Script.extensions.contains e
  | none => [".ignore", ".gitignore", "exclude"].any fun s => fileName s == name

/-- Take up all that is below a place. -/
partial def takeTree (t : FileTree) (place : List FileName) : IO FileTree := do
  let directory ← IO.FS.realPath (textOfPlace place)
  let mut t := if (t.at? place).isSome then t else t.put place (.directory [])
  for entry in ← directory.readDir do
    let name := fileName entry.fileName
    let child := place ++ [name]
    let info ← entry.path.symlinkMetadata
    match info.type with
    | .dir => t ← takeTree t child
    | .symlink =>
      let (t', target) ← takePath t place [name]
      t := t'
      if let some target := target then
        if (t.at? target).isNone then t ← takeFile t target
      else t := t.put child (.link ⟨[]⟩)
    | _ =>
      if (t.at? child).isNone then
        if isOfInterest name then t ← takeFile t child else t := t.put child (.file [])
  pure t

/-- Take up what checking a directory may need. -/
def takeProject (m : Machine) (directory : Path) (excludes : List String) (choice : Option Path) :
    IO Machine := do
  let mut m := m
  for file in (choice.toList ++ (ConfigSource.candidates m directory).map (·.file)) do
    m ← m.takeFileAt file
  for file in m.gitSettings do
    m ← m.takeFileAt file
  for file in m.globalIgnoreFile?.toList do
    m ← m.takeFileAt file
  match m.analyzer directory excludes choice with
  | .error _ => pure m
  | .ok a =>
    let (t, place) ← takePath m.files [] a.root.segments
    match place with
    | none => pure { m with files := t }
    | some base =>
      let mut t := t
      for above in directoriesAbove base do
        for source in RuleSource.all do
          let (t', file) ← takePath t above source.file
          t := t'
          if let some file := file then
            if (t.at? file).isNone then t ← takeFile t file
      match t.at? base with
      | some (.directory _) => t ← takeTree t base
      | _ => t ← takeFile t base
      pure { m with files := t }

/-- A picture of the machine for a request. -/
def take (m : Machine) : Request → IO Machine
  | .check directory _ excludes choice => m.takeProject directory excludes choice
  | .init _ => do
    let (t, _) ← takePath m.files [] m.workingDirectory.segments
    { m with files := t }.takeFileAt Template.file
  | _ => pure m

/-- The variables of the environment that matter. -/
def environmentNames : List String :=
  ["HOME", "XDG_CONFIG_HOME", "IMPORT_PATTERNS_CONFIG", "IMPORT_PATTERNS_CONFIG_DIR"]

end ImportLint.Machine

open ImportLint in
/-- Run the command: print, write what is to be written, and end with the status. -/
def main (args : List String) : IO UInt32 := do
  let directory ← IO.currentDir
  let values ← Machine.environmentNames.mapM fun name => do pure (name, ← IO.getEnv name)
  let environment := values.filterMap fun (name, value) => value.map fun v => (name, v)
  let m : Machine := ⟨.directory [], Path.ofString directory.toString, environment⟩
  let m ← (m.request? args).elim (pure m) m.take
  let (outcome, after) := m.run args
  for line in outcome.printed do
    IO.println line
  if let some e := outcome.error then
    IO.eprintln s!"Error: {e.message}"
  if outcome.status == 2 then
    for line in Machine.usage do
      IO.eprintln line
  if let (some (.init _), none) := (m.request? args, outcome.error) then
    if let some (.file content) := after.resolve? Template.file then
      IO.FS.writeBinFile Template.file.display ⟨content.toArray⟩
  pure (UInt32.ofNat outcome.status)

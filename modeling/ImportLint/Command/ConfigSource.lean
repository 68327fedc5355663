import ImportLint.Command.Output
import ImportLint.Config.File

/-!
# Where a configuration comes from

A file of choice comes first, then the first that there is of certain files in the checked
directory, and last the configuration of the user. A relative root is read in the checked directory;
with a file of choice it is read in the directory of that file, so that the file means the same
wherever it is used.
-/

namespace ImportLint

/-- How a configuration file was found. -/
inductive ConfigOrigin where
  | choice
  | project
  | user
  deriving DecidableEq, Repr

/-- A configuration file to be used. -/
structure ConfigSource where
  file : Path
  origin : ConfigOrigin
  deriving DecidableEq, Repr

namespace ConfigSource

/-- The configuration files of a project. -/
def projectFiles : List Path :=
  ["import-patterns.toml", ".import-patterns.toml", "import-patterns.json"].map Path.ofString

/-- The directory with the configuration of the user. -/
def userDirectory? (m : Machine) : Option Path :=
  ((m.valueOf? "IMPORT_PATTERNS_CONFIG_DIR").map Path.ofString).or
    (m.home?.map (· / Path.ofString ".import-patterns"))

/-- The files that are tried for a directory where there is no file of choice, in their order. -/
def candidates (m : Machine) (directory : Path) : List ConfigSource :=
  projectFiles.map (⟨directory / ·, .project⟩) ++
    ((userDirectory? m).map fun dir => ⟨dir / Path.ofString "config.toml", .user⟩).toList

/-- The configuration file for a directory. -/
def find? (m : Machine) (directory : Path) (choice : Option Path) : Option ConfigSource :=
  match choice with
  | some file => some ⟨file, .choice⟩
  | none => (candidates m directory).find? fun s => m.isFile s.file

/-- The directory that a relative root is read in. -/
def base (s : ConfigSource) (directory : Path) : Path :=
  match s.origin with
  | .choice =>
    match s.file.parent? with
    | some dir => if dir.bytes.isEmpty then Path.ofString "." else dir
    | none => Path.ofString "."
  | .project | .user => directory

/-- The configuration in the file. -/
def load (s : ConfigSource) (m : Machine) : Except CommandError Config :=
  (Config.ofFile m s.file).mapError fun _ => .badConfig s.file

end ConfigSource

end ImportLint

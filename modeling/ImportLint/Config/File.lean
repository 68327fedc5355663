import ImportLint.Config.Reader
import ImportLint.FileTree.Resolve

/-!
# Configuration files

A configuration file is JSON if its extension says so, and TOML otherwise.
-/

namespace ImportLint.Config

/-- The configuration in a file. -/
def ofFile (m : Machine) (file : Path) : Except ConfigError Config :=
  match m.readText? file with
  | some text => parse file (String.ofList text)
  | none => .error (.unreadable file)

end ImportLint.Config

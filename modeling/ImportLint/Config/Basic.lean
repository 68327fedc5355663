import ImportLint.Glob.Pattern
import ImportLint.Path.Basic
import ImportLint.Severity

/-!
# Configurations

A **configuration** says which files may import what: an ordered list of entries, each with a target
that selects files and the restrictions of which a module specifier must satisfy one. Entries are
checked when they are made. The first fault is reported: that of the first faulty entry, and in it
the target's before those of the restrictions.
-/

namespace ImportLint

/-- An entry as it is written. -/
structure EntryText where
  target : String
  restrictions : List String
  /-- Where the reason for the entry is explained. -/
  docRef : Option String
  deriving DecidableEq, Repr

/-- A checked **entry**: files that match the target may import only modules that match a
restriction. -/
structure Entry where
  target : Glob.Pattern
  restrictions : List Glob.Pattern
  docRef : Option String
  deriving DecidableEq, Repr

/-- The directory to analyze if none is given. -/
def Config.defaultRoot : Path := Path.ofString "."

/-- The globs for what is left out if none are given. -/
def Config.defaultExclude : List String := ["**/node_modules/**"]

/-- A configuration. -/
structure Config where
  /-- The directory to analyze. -/
  root : Path := Config.defaultRoot
  /-- Globs for what is left out. -/
  exclude : List String := Config.defaultExclude
  /-- Whether the ignore files of git count. -/
  respectGitignore : Bool := true
  /-- The severity of violations. -/
  severity : Severity := .error
  /-- The severity from which on violations make a run fail. -/
  failOn : Severity := .error
  /-- The entries, of which the first that selects a file applies. -/
  entries : List Entry := []
  deriving DecidableEq, Repr

/-- Why there is no configuration. -/
inductive ConfigError where
  /-- The file cannot be read as text. -/
  | unreadable (path : Path)
  /-- The text is not well-formed, or not of the form of a configuration. -/
  | malformed
  /-- The text is well-formed JSON, but neither a list of entries nor a configuration. -/
  | noReading
  /-- A glob is invalid. -/
  | pattern (context : String) (cause : Glob.PatternError)
  /-- An entry lists no restrictions. -/
  | emptyRestrictions (context : String)
  deriving DecidableEq, Repr

/-- The wording of an error. -/
def ConfigError.message : ConfigError → String
  | unreadable path => s!"failed to read {path.display}"
  | malformed => "invalid config"
  | noReading => "invalid config: data did not match any variant of untagged enum JsonDocument"
  | pattern context cause => s!"{context}: {cause.message}"
  | emptyRestrictions context => s!"{context}: restrictions must not be empty"

/-- Apply a check to each item of a list and its index, from an index on, up to the first fault. -/
def checkEach {α β ε : Type} (check : Nat → α → Except ε β) : Nat → List α → Except ε (List β)
  | _, [] => .ok []
  | i, a :: as => do
    let b ← check i a
    let bs ← checkEach check (i + 1) as
    pure (b :: bs)

namespace Entry

/-- An entry with its own account of what is wrong with it: the target, a restriction, or that there
is no restriction. -/
def ofText? (ofTarget : Glob.PatternError → ConfigError)
    (ofRestriction : Nat → Glob.PatternError → ConfigError) (ofNone : ConfigError) (t : EntryText) :
    Except ConfigError Entry := do
  let target ← (Glob.Pattern.ofString? t.target).mapError ofTarget
  let restrictions ←
    checkEach (fun j r => (Glob.Pattern.ofString? r).mapError (ofRestriction j)) 0 t.restrictions
  if restrictions.isEmpty then throw ofNone
  pure ⟨target, restrictions, t.docRef⟩

/-- The entry at an index of a configuration. -/
def atIndex? (i : Nat) (t : EntryText) : Except ConfigError Entry :=
  let context := s!"import-patterns[{i}]"
  ofText? (.pattern s!"{context}.target") (fun j => .pattern s!"{context}.restrictions[{j}]")
    (.emptyRestrictions context) t

/-- The entries of a configuration. -/
def ofTexts? (ts : List EntryText) : Except ConfigError (List Entry) := checkEach atIndex? 0 ts

end Entry

/-- A configuration with some entries and defaults for the rest. -/
def Config.ofEntries (entries : List Entry) : Config := { entries }

end ImportLint

import ImportLint.Path.Basic

/-!
# Requests

What the arguments of the command ask for. Options come in a long and a short form, short ones also
several in one argument; a value is attached to its option or is the next argument. Options that may
come before the name of the subcommand may come after it too, where they take precedence. Two
hyphens end the options.
-/

namespace ImportLint

/-- The forms in which a report is printed. -/
inductive OutputFormat where
  | text
  | json
  | compact
  | pretty
  deriving DecidableEq, Repr

/-- The output format that a word names. -/
def OutputFormat.ofWord? : String → Option OutputFormat
  | "text" => some .text
  | "json" => some .json
  | "compact" => some .compact
  | "pretty" => some .pretty
  | _ => none

/-- What is asked for. -/
inductive Request where
  /-- Check a directory, with a configuration file of choice and more globs of what to leave out. -/
  | check (directory : Path) (format : OutputFormat) (excludes : List String) (config : Option Path)
  /-- Write a configuration to start from, if need be over another. -/
  | init (force : Bool)
  | version
  | help
  deriving DecidableEq, Repr

namespace Request

/-- The options. -/
inductive Switch where
  | verbose
  | config
  | format
  | exclude
  | force
  | help
  | version
  deriving DecidableEq, Repr

namespace Switch

/-- The options, each with its long and its short form. -/
def all : List (Switch × String × Option Char) :=
  [(verbose, "verbose", some 'v'), (config, "config", some 'c'), (format, "format", some 'f'),
    (exclude, "exclude", some 'e'), (force, "force", none), (help, "help", some 'h'),
    (version, "version", some 'V')]

/-- Whether a value goes with an option. -/
def takesValue : Switch → Bool
  | config | format | exclude => true
  | _ => false

end Switch

/-- An argument or part of one. -/
inductive Item where
  | flag (s : Switch)
  | value (s : Switch) (text : String)
  | operand (text : String)
  deriving DecidableEq, Repr

/-- Whether an argument is no value for an option before it. -/
def isOptionLike : List Char → Bool
  | ['-'] => false
  | '-' :: _ => true
  | _ => false

/-- An option with a value, which is attached or the next argument. -/
def valueItem (s : Switch) (attached : Option (List Char)) (rest : List String) :
    Option (Item × List String) :=
  match attached, rest with
  | some v, rest => some (.value s (String.ofList v), rest)
  | none, v :: rest => if isOptionLike v.toList then none else some (.value s v, rest)
  | none, [] => none

/-- The first item of arguments after `--`. -/
def longItem (available : List Switch) (body : List Char) (rest : List String) :
    Option (Item × List String) :=
  let name := String.ofList (body.takeWhile (· != '='))
  let attached :=
    match body.dropWhile (· != '=') with
    | [] => none
    | _ :: v => some v
  match Switch.all.find? fun s => s.2.1 == name && available.contains s.1 with
  | none => none
  | some (s, _) =>
    if s.takesValue then valueItem s attached rest
    else if attached.isNone then some (.flag s, rest)
    else none

/-- The first item of arguments after `-`; further options of the argument are left for later. -/
def shortItem (available : List Switch) (c : Char) (body : List Char) (rest : List String) :
    Option (Item × List String) :=
  match Switch.all.find? fun s => s.2.2 == some c && available.contains s.1 with
  | none => none
  | some (s, _) =>
    if s.takesValue then
      match body with
      | [] => valueItem s none rest
      | '=' :: v => valueItem s (some v) rest
      | v => valueItem s (some v) rest
    else
      match body with
      | [] => some (.flag s, rest)
      | '-' :: _ => none
      | more => some (.flag s, String.ofList ('-' :: more) :: rest)

/-- The first item of an argument and those after it, where options are still possible. -/
def nextItem (available : List Switch) (argument : String) (rest : List String) :
    Option (Item × List String) :=
  match argument.toList with
  | '-' :: '-' :: body => longItem available body rest
  | '-' :: c :: body => shortItem available c body rest
  | _ => some (.operand argument, rest)

/-- What has been given so far. -/
structure Given where
  flags : List Switch := []
  values : List (Switch × String) := []
  operands : List String := []

namespace Given

/-- Whether an option has been given. -/
def has (g : Given) (s : Switch) : Bool := g.flags.contains s || g.values.any (·.1 == s)

/-- The value of an option. -/
def value? (g : Given) (s : Switch) : Option String := (g.values.find? (·.1 == s)).map (·.2)

/-- Whether a value will do for an option. -/
def isValid : Switch → String → Bool
  | .format, v => (OutputFormat.ofWord? v).isSome
  | .config, v => !v.isEmpty
  | _, _ => true

/-- What has been given with one item more. Only excludes may be given repeatedly. -/
def add? (g : Given) : Item → Option Given
  | .flag s => if g.has s then none else some { g with flags := s :: g.flags }
  | .value s v =>
    if (g.has s && s != .exclude) || !isValid s v then none
    else some { g with values := g.values ++ [(s, v)] }
  | .operand v => some { g with operands := g.operands ++ [v] }

end Given

/-- The options that may come before the name of the subcommand. -/
def outerSwitches : List Switch := [.verbose, .config, .help, .version]

/-- The options of the subcommand that checks. -/
def checkSwitches : List Switch := [.verbose, .config, .help, .format, .exclude]

/-- The options of the subcommand that writes a configuration. -/
def initSwitches : List Switch := [.verbose, .config, .help, .force]

/-- How arguments are taken in. -/
inductive Intake where
  /-- All of them. -/
  | done (g : Given)
  /-- Up to a flag that settles what is asked for. -/
  | settled (r : Request)
  /-- Up to the name of the subcommand. -/
  | subcommand (g : Given) (name : String) (rest : List String)

/-- Take in arguments, up to a number of items; before the name of the subcommand there are no
operands. -/
def intake (available : List Switch) (isOuter : Bool) : Nat → Given → List String → Option Intake
  | 0, _, _ => none
  | _ + 1, g, [] => some (.done g)
  | n + 1, g, a :: rest =>
    if a == "--" then
      if isOuter && !rest.isEmpty then none
      else some (.done { g with operands := g.operands ++ rest })
    else
      match nextItem available a rest with
      | none => none
      | some (.flag .help, _) => some (.settled .help)
      | some (.flag .version, _) => some (.settled .version)
      | some (.operand v, rest) =>
        if isOuter then some (.subcommand g v rest)
        else (g.add? (.operand v)).bind fun g => intake available isOuter n g rest
      | some (item, rest) => (g.add? item).bind fun g => intake available isOuter n g rest

/-- Take in all arguments. -/
def intakeAll (available : List Switch) (isOuter : Bool) (args : List String) : Option Intake :=
  intake available isOuter ((String.join args).length + args.length + 1) {} args

/-- The configuration file of choice: given after the name of the subcommand, before it, or by the
environment, which must not leave it empty. -/
def configFile? (environment : Option String) (outer inner : Given) : Option (Option Path) :=
  let given := (inner.value? .config).or (outer.value? .config)
  if environment == some "" && !(outer.has .config && inner.has .config) then none
  else some ((given.or environment).map Path.ofString)

/-- The request to check, if there is at most one operand and it is not empty. -/
def check? (config : Option Path) (g : Given) : Option Request :=
  let format := ((g.value? .format).bind OutputFormat.ofWord?).getD .text
  let excludes := (g.values.filter (·.1 == .exclude)).map (·.2)
  match g.operands with
  | [] => some (.check (Path.ofString ".") format excludes config)
  | [v] => if v.isEmpty then none else some (.check (Path.ofString v) format excludes config)
  | _ => none

/-- What arguments ask for, if they can be made sense of; the environment may name a configuration
file. -/
def ofArguments? (environment : Option String) (args : List String) : Option Request := do
  match ← intakeAll outerSwitches true args with
  | .done _ => none
  | .settled r => some r
  | .subcommand outer "check" rest =>
    match ← intakeAll checkSwitches false rest with
    | .done g => check? (← configFile? environment outer g) g
    | .settled r => some r
    | .subcommand .. => none
  | .subcommand outer "init" rest =>
    match ← intakeAll initSwitches false rest with
    | .done g =>
      let _ ← configFile? environment outer g
      if g.operands.isEmpty then some (.init (g.has .force)) else none
    | .settled r => some r
    | .subcommand .. => none
  | .subcommand _ "help" _ => some .help
  | .subcommand .. => none

end Request

end ImportLint

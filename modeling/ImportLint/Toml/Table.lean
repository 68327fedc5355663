import ImportLint.Document.Basic

/-!
# Tables of TOML

A TOML text builds one table piece by piece, and a table may be built only in one way: under its own
header, which comes once, or by dotted keys, all in one section. A header may pass through tables
that have none yet, and these may still get theirs. A path that meets a list of tables goes on in
its last one.
-/

namespace ImportLint.Toml

/-- A key of a table. -/
abbrev Key := List Char

/-- A dotted key: the tables it goes through and the key in the last of them. -/
structure KeyPath where
  parents : List Key
  last : Key
  deriving DecidableEq, Repr

/-- How a table came to be. -/
inductive Origin where
  /-- By a header of its own. -/
  | header
  /-- By a header that passes through it. -/
  | passing
  /-- By a dotted key. -/
  | dotted
  deriving DecidableEq, Repr

/-- What a key of an unfinished table stands for. -/
inductive Node where
  | value (d : Document)
  | table (origin : Origin) (members : List (Key × Node))
  | tables (items : List (List (Key × Node)))
  deriving Repr

/-- The members of an unfinished table. -/
abbrev Members := List (Key × Node)

namespace Members

/-- Rework what a key stands for, which may be nothing yet. -/
def rework (key : Key) (f : Option Node → Option Node) : Members → Option Members
  | [] => (f none).map fun node => [(key, node)]
  | (k, node) :: ms =>
    if k = key then (f (some node)).map fun node => (k, node) :: ms
    else (rework key f ms).map ((k, node) :: ·)

/-- Rework the last of some tables. -/
def reworkLast (f : Members → Option Members) : List Members → Option (List Members)
  | [] => none
  | [ms] => (f ms).map ([·])
  | ms :: rest => (reworkLast f rest).map (ms :: ·)

/-- Rework the table that a path of a header leads to. -/
def underHeader (f : Members → Option Members) : List Key → Members → Option Members
  | [], ms => f ms
  | k :: ks, ms =>
    ms.rework k fun
      | none => (underHeader f ks []).map (.table .passing)
      | some (.table origin inner) => (underHeader f ks inner).map (.table origin)
      | some (.tables items) => (reworkLast (underHeader f ks) items).map .tables
      | some (.value _) => none

/-- Give a key a value. It must have none. -/
def put (key : Key) (value : Document) : Members → Option Members :=
  rework key fun
    | none => some (.value value)
    | some _ => none

/-- Give a dotted key a value. The table that holds it must be there only by dotted keys. -/
def assign (value : Document) (last : Key) : List Key → Members → Option Members
  | [], ms => ms.put last value
  | [k], ms =>
    ms.rework k fun
      | none => (put last value []).map (.table .dotted)
      | some (.table .dotted inner) => (put last value inner).map (.table .dotted)
      | some _ => none
  | k :: ks, ms =>
    ms.rework k fun
      | none => (assign value last ks []).map (.table .dotted)
      | some (.table .header _) => none
      | some (.table origin inner) => (assign value last ks inner).map (.table origin)
      | some (.tables items) => (reworkLast (assign value last ks) items).map .tables
      | some (.value _) => none

/-- Give several dotted keys their values. -/
def assignAll (assignments : List (KeyPath × Document)) (ms : Members) : Option Members :=
  assignments.foldlM (fun ms a => assign a.2 a.1.last a.1.parents ms) ms

/-- Fill the table of a header. It must have had no header, nor be there by dotted keys. -/
def openTable (path : KeyPath) (fill : Members → Option Members) : Members → Option Members :=
  underHeader (rework path.last fun
    | none => (fill []).map (.table .header)
    | some (.table .passing ms) => (fill ms).map (.table .header)
    | some _ => none) path.parents

/-- Fill a new table at the end of a list of tables. -/
def openItem (path : KeyPath) (fill : Members → Option Members) : Members → Option Members :=
  underHeader (rework path.last fun
    | none => (fill []).map fun ms => .tables [ms]
    | some (.tables items) => (fill []).map fun ms => .tables (items ++ [ms])
    | some _ => none) path.parents

end Members

mutual

/-- A finished node. -/
def Node.toDocument : Node → Document
  | .value d => d
  | .table _ ms => .table (membersToDocuments ms)
  | .tables items => .list (itemsToDocuments items)

/-- Finished members. -/
def membersToDocuments : List (Key × Node) → List (List Char × Document)
  | [] => []
  | (k, node) :: ms => (k, node.toDocument) :: membersToDocuments ms

/-- Finished tables. -/
def itemsToDocuments : List (List (Key × Node)) → List Document
  | [] => []
  | ms :: rest => .table (membersToDocuments ms) :: itemsToDocuments rest

end

end ImportLint.Toml

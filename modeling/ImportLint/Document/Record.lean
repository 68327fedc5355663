import ImportLint.Document.Basic
import ImportLint.Severity

/-!
# Records in documents

A record with named fields may be written as a table, or as a list of its fields in their order. The
conventions of a data format say how much of that it takes. Fields of a table that have no place in
the record are passed over; a field given twice is a fault.
-/

namespace ImportLint

/-- What a data format allows where the written forms of a record or of a bare name are
concerned. -/
structure Conventions where
  /-- Whether a list may have more items than the record has fields. -/
  surplusItems : Bool
  /-- Whether a value may stand beside a name, in a table of one member, when nothing else is to
  say. -/
  isFiller : Document → Bool

namespace Conventions

/-- JSON read straight into a record. -/
def json : Conventions where
  surplusItems := false
  isFiller
    | .null => true
    | _ => false

/-- JSON of which several readings are tried. -/
def jsonChoice : Conventions where
  surplusItems := false
  isFiller
    | .null | .table [] => true
    | _ => false

/-- TOML. -/
def toml : Conventions where
  surplusItems := true
  isFiller
    | .list [] | .table [] => true
    | _ => false

end Conventions

namespace Document

/-- The field of a table: `none` if it is given twice, `some none` if it is not given. -/
def field? (members : List (List Char × Document)) (name : String) : Option (Option Document) :=
  match members.filter (·.1 == name.toList) with
  | [] => some none
  | [m] => some (some m.2)
  | _ => none

/-- The fields of a record, each if it is given. -/
def fields? (conv : Conventions) (names : List String) : Document → Option (List (Option Document))
  | table ms => names.mapM (field? ms)
  | list ds =>
    if ds.length ≤ names.length || conv.surplusItems then
      some ((ds.take names.length).map some ++ List.replicate (names.length - ds.length) none)
    else none
  | _ => none

/-- Several texts. -/
def strings? : Document → Option (List (List Char))
  | list ds => ds.mapM string?
  | _ => none

/-- A truth value. -/
def bool? : Document → Option Bool
  | bool b => some b
  | _ => none

/-- A value or nothing. -/
def optional? {α : Type} (f : Document → Option α) : Document → Option (Option α)
  | null => some none
  | d => (f d).map some

/-- A severity, by its word. -/
def severity? (conv : Conventions) : Document → Option Severity
  | string s => Severity.ofWord? s
  | table [(k, d)] => if conv.isFiller d then Severity.ofWord? k else none
  | _ => none

/-- A field that has a default. -/
def orDefault {α : Type} (default : α) (f : Document → Option α) : Option Document → Option α
  | some d => f d
  | none => some default

end Document

end ImportLint

import ImportLint.Text.Decimal

/-!
# Documents

What a JSON or a TOML text says, before anything is made of it: nested lists and tables of plain
values. The members of a table keep their order, and a key may come twice; what reads a table
decides about that.
-/

namespace ImportLint

/-- The value of a text in a data format. -/
inductive Document where
  | null
  | bool (b : Bool)
  /-- A number as it is spelled. -/
  | number (spelling : List Char)
  | string (s : List Char)
  /-- A string, as it is spelled, that is no text because it escapes half of a surrogate pair. -/
  | halfString (spelling : List Char)
  /-- A date, a time, or both. -/
  | moment
  | list (items : List Document)
  | table (members : List (List Char × Document))
  deriving Repr

namespace Document

/-- The largest natural number that has a place in a document. -/
def maxNatural : Nat := Nat.pow 2 64 - 1

/-- A natural number as a document. -/
def ofNat (n : Nat) : Document := number (Decimal.digits n)

/-- The natural number that a document is, if it is one and not too large. -/
def natural? : Document → Option Nat
  | number ds =>
    if !ds.isEmpty && ds.all Char.isDigit && Decimal.ofDigits ds ≤ maxNatural then
      some (Decimal.ofDigits ds)
    else none
  | _ => none

/-- The text that a document is. -/
def string? : Document → Option (List Char)
  | string s => some s
  | _ => none

mutual

/-- How deep lists and tables are nested. -/
def depth : Document → Nat
  | list ds => 1 + depthOfItems ds
  | table ms => 1 + depthOfMembers ms
  | _ => 0

/-- The depth of the deepest of some documents. -/
def depthOfItems : List Document → Nat
  | [] => 0
  | d :: ds => max d.depth (depthOfItems ds)

/-- The depth of the deepest of some members. -/
def depthOfMembers : List (List Char × Document) → Nat
  | [] => 0
  | (_, d) :: ms => max d.depth (depthOfMembers ms)

end

mutual

/-- Whether a property of plain values holds throughout. -/
def holdsThroughout (p : Document → Bool) : Document → Bool
  | list ds => allItems p ds
  | table ms => allMembers p ms
  | d => p d

/-- Whether a property of plain values holds throughout some documents. -/
def allItems (p : Document → Bool) : List Document → Bool
  | [] => true
  | d :: ds => d.holdsThroughout p && allItems p ds

/-- Whether a property of plain values holds throughout some members. -/
def allMembers (p : Document → Bool) : List (List Char × Document) → Bool
  | [] => true
  | (_, d) :: ms => d.holdsThroughout p && allMembers p ms

end

end Document

end ImportLint

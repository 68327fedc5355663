import ImportLint.Document.Record
import ImportLint.Report.Basic

/-!
# Reports as documents

Violations and reports as records of a document and back. A file whose path is no text has no place
in a document. What is read is what was written: the reference to a document may be left out and is
when there is none, and a suggestion may be left out but is written as nothing.
-/

namespace ImportLint

open Document

/-- A text as a document. -/
def Document.ofString (s : String) : Document := .string s.toList

/-- The text that a document is. -/
def Document.text? (d : Document) : Option String := d.string?.map String.ofList

/-- Whether a record is not a list that is too short. -/
def Document.hasItems (n : Nat) : Document → Bool
  | .list ds => n ≤ ds.length
  | _ => true

/-- A member of a table. -/
def Document.member (name : String) (d : Document) : List Char × Document := (name.toList, d)

namespace Location

/-- The names of the fields. -/
def fieldNames : List String := ["file", "line", "column", "offset", "length"]

/-- A place as a record. -/
def toDocument? (a : Location) : Option Document :=
  (Utf8.decode? a.file.bytes).map fun file =>
    .table [member "file" (.string file), member "line" (ofNat a.line),
      member "column" (ofNat a.column), member "offset" (ofNat a.offset),
      member "length" (ofNat a.length)]

/-- The place that a record is. -/
def ofDocument? (conv : Conventions) (d : Document) : Option Location := do
  match ← d.fields? conv fieldNames with
  | [some file, some line, some column, some offset, some length] =>
    let file ← file.text?
    pure ⟨Path.ofString file, ← line.natural?, ← column.natural?,
      ← offset.natural?, ← length.natural?⟩
  | _ => none

end Location

namespace Violation

/-- The names of the fields. -/
def fieldNames : List String :=
  ["code", "rule", "severity", "location", "message", "suggestion", "doc_ref"]

/-- A suggestion as a record. -/
def suggestionDocument : Option String → Document
  | some s => .table [member "message" (.ofString s)]
  | none => .null

/-- A violation as a record. -/
def toDocument? (v : Violation) : Option Document :=
  v.location.toDocument?.map fun location =>
    .table ([member "code" (.ofString v.code), member "rule" (.ofString v.rule),
      member "severity" (.ofString v.severity.word), member "location" location,
      member "message" (.ofString v.message),
      member "suggestion" (suggestionDocument v.suggestion)] ++
      (v.docRef.map fun doc => member "doc_ref" (.ofString doc)).toList)

/-- The suggestion that a record is. -/
def suggestion? (conv : Conventions) (d : Document) : Option String := do
  match ← d.fields? conv ["message"] with
  | [some message] => message.text?
  | _ => none

/-- The violation that a record is. -/
def ofDocument? (conv : Conventions) (d : Document) : Option Violation := do
  if !d.hasItems 6 then none
  match ← d.fields? conv fieldNames with
  | [some code, some rule, some severity, some location, some message, suggestion, doc] =>
    let code ← code.text?
    let rule ← rule.text?
    let severity ← severity.severity? conv
    let location ← Location.ofDocument? conv location
    let message ← message.text?
    let suggestion ← orDefault none (optional? (suggestion? conv)) suggestion
    let doc ← orDefault none (optional? text?) doc
    pure ⟨code, rule, severity, location, message, suggestion, doc⟩
  | _ => none

end Violation

namespace Report

/-- The names of the fields. -/
def fieldNames : List String := ["violations", "files_checked"]

/-- A report as a record. -/
def toDocument? (r : Report) : Option Document :=
  (r.violations.mapM Violation.toDocument?).map fun vs =>
    .table [member "violations" (.list vs), member "files_checked" (ofNat r.filesChecked)]

/-- The report that a record is. -/
def ofDocument? (conv : Conventions) (d : Document) : Option Report := do
  match ← d.fields? conv fieldNames with
  | [some (.list vs), some files] =>
    pure ⟨← vs.mapM (Violation.ofDocument? conv), ← files.natural?⟩
  | _ => none

end Report

end ImportLint

import ImportLint.Script.Extract
import ImportLint.Text.Pieces

/-!
# Extractors

An **extractor** reads source files of some extensions into what they import. Of several extractors
the first that supports an extension reads the file. It fails if the grammar of its language cannot
be loaded, or if the parser comes to no tree.
-/

namespace ImportLint

/-- Why an extractor makes nothing of a source text. -/
inductive ExtractError where
  /-- The grammar of a language cannot be loaded. -/
  | language (name message : String)
  /-- The parser of a language comes to no tree. -/
  | parse (name : String)
  deriving DecidableEq, Repr

/-- The wording of an error. -/
def ExtractError.message : ExtractError → String
  | language name message => s!"failed to load {name} grammar: {message}"
  | parse name => s!"failed to parse {name} source"

/-- A language with its grammars. -/
structure Language where
  name : String
  /-- What the loader says if the grammar for a source text cannot be loaded, given the
  extension. -/
  fault? : (source : List Char) → (extension : String) → Option String := fun _ _ => none

/-- A language by its name has grammars that can be loaded. -/
instance : Coe String Language := ⟨fun name => { name }⟩

/-- A language is shown by its name. -/
instance : Coe Language String := ⟨Language.name⟩

/-- An extractor. -/
structure Extractor where
  /-- The language that it reads. -/
  language : Language
  /-- The extensions that it supports, each with its dot. -/
  extensions : List String
  /-- What a source text imports, given its extension; `none` if the parser comes to no tree. -/
  extract : (source : List Char) → (extension : String) → Option Extraction

namespace Extractor

/-- Read a source text, given its extension: load the grammar, then parse. -/
def read (x : Extractor) (source : List Char) (extension : String) :
    Except ExtractError Extraction :=
  match x.language.fault? source extension with
  | some message => .error (.language x.language.name message)
  | none =>
    match x.extract source extension with
    | some extraction => .ok extraction
    | none => .error (.parse x.language.name)

/-- Whether an extractor reads files with an extension. -/
def supports (x : Extractor) (extension : String) : Bool := x.extensions.contains extension

/-- A source text that is read has a grammar and comes to a tree. -/
theorem read_eq_ok_iff {x : Extractor} {source : List Char} {extension : String}
    {extraction : Extraction} :
    x.read source extension = .ok extraction ↔
      x.language.fault? source extension = none ∧ x.extract source extension = some extraction := by
  unfold read
  split
  · next h => simp [h]
  · next h => split <;> simp [*]

/-- The extractor for TypeScript and JavaScript. -/
def script : Extractor where
  language := "typescript"
  extensions := Script.extensions
  extract source extension := some (Script.extract source (Script.Dialect.ofExtension extension))

/-- The imports of lines, each of which is a module specifier unless it is empty. -/
def importsOfLines (offset line : Nat) : List (List Char) → List Import
  | [] => []
  | text :: rest =>
    let width := Utf8.size text
    (if text.isEmpty then [] else [⟨text, offset, width, line, 0⟩]) ++
      importsOfLines (offset + width + 1) (line + 1) rest

/-- The extractor for bare lists of module specifiers, one a line. -/
def lines : Extractor where
  language := "lines"
  extensions := [".txt", ".ts"]
  extract source _ := some ⟨importsOfLines 0 1 (pieces '\n' source), false⟩

end Extractor

end ImportLint

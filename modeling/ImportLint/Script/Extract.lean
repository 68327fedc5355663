import ImportLint.Script.Reading
import ImportLint.Script.Walk

/-!
# Imports of a source file

What a source file in TypeScript or JavaScript imports: it is read in the dialect of its extension,
and the import statements of the tree are collected.
-/

namespace ImportLint.Script

/-- The extensions of the files that can be read. -/
def extensions : List String := [".ts", ".mts", ".cts", ".tsx", ".js", ".jsx", ".mjs", ".cjs"]

/-- The dialect of files with an extension. -/
def Dialect.ofExtension (ext : String) : Dialect :=
  if [".ts", ".mts", ".cts"].contains ext then .typescript else .markup

/-- What a tree imports. -/
def Tree.extraction (t : Tree) : Extraction := ⟨collectImports t, t.hasStray⟩

/-- The imports of a source text. -/
def extract (source : List Char) (d : Dialect) : Extraction := (read d source).extraction

end ImportLint.Script

import ImportLint.Import
import ImportLint.Script.Tree
import ImportLint.Script.Position

/-!
# Walking a tree for its imports

A **cursor** stands on one tree and remembers the way back: the trees that follow beside it, and the
same for each construct around it. The walk makes one of three moves at a time (down, on, up) and
collects the import statements it comes upon without entering them; each move leaves it less to do.
`Tree.imports` says the same by recursion on the tree.
-/

namespace ImportLint.Script

namespace Tree

/-- Whether a tree is an import statement. -/
def isImport : Tree → Bool
  | node .importStatement _ => true
  | _ => false

/-- The parts of a tree. -/
def children : Tree → List Tree
  | node _ ts => ts
  | _ => []

/-- The module specifier among the parts of a tree. -/
def specifier? (t : Tree) : Option (List Char) :=
  t.children.findSome? fun
    | token .specifier text => some text
    | _ => none

/-- What an import statement at a position says, if it names a module. -/
def import? (t : Tree) (p : Position) : Option Import :=
  t.specifier?.map fun s => ⟨s, p.offset, Utf8.size t.text, p.line + 1, p.column⟩

mutual

/-- The import statements in a tree at a position, from left to right, none inside another. -/
def imports (p : Position) : Tree → List Import
  | node .importStatement ts => ((node .importStatement ts).import? p).toList
  | node _ ts => importsOf p ts
  | _ => []

/-- The import statements in a row of trees at a position. -/
def importsOf (p : Position) : List Tree → List Import
  | [] => []
  | t :: ts => imports p t ++ importsOf (p.after t.text) ts

end

mutual

/-- How many moves a walk over a tree takes, and one for leaving it. -/
def effort : Tree → Nat
  | node _ ts => 2 + effortOf ts
  | _ => 2

/-- How many moves a walk over a row of trees takes. -/
def effortOf : List Tree → Nat
  | [] => 0
  | t :: ts => effort t + effortOf ts

end

end Tree

/-- A place on the way: a tree, its position, and the trees beside it that follow. -/
structure Step where
  tree : Tree
  position : Position
  later : List Tree

/-- A **cursor** in a tree. -/
structure Cursor where
  focus : Step
  /-- The constructs around the focus, the innermost first. -/
  above : List Step

namespace Cursor

/-- The cursor on a whole tree. -/
def root (t : Tree) : Cursor := ⟨⟨t, {}, []⟩, []⟩

/-- Down to the first part of the focus. -/
def down? (c : Cursor) : Option Cursor :=
  match c.focus.tree.children with
  | [] => none
  | t :: ts => some ⟨⟨t, c.focus.position, ts⟩, c.focus :: c.above⟩

/-- On to the tree beside the focus. -/
def onward? (c : Cursor) : Option Cursor :=
  match c.focus.later with
  | [] => none
  | t :: ts => some ⟨⟨t, c.focus.position.after c.focus.tree.text, ts⟩, c.above⟩

/-- Up to the construct around the focus. -/
def up? (c : Cursor) : Option Cursor :=
  match c.above with
  | [] => none
  | s :: above => some ⟨s, above⟩

/-- How many moves it takes to leave constructs one after the other. -/
def effortAbove : List Step → Nat
  | [] => 0
  | s :: above => 1 + Tree.effortOf s.later + effortAbove above

/-- How many moves are left, when the focus has been dealt with or not. -/
def effort (dealt : Bool) (c : Cursor) : Nat :=
  (if dealt then 1 else c.focus.tree.effort) + Tree.effortOf c.focus.later + effortAbove c.above

/-- A move down to the first child leaves fewer moves. -/
theorem effort_down {c c' : Cursor} (h : c.down? = some c') : c'.effort false < c.effort false := by
  unfold down? at h
  split at h
  · cases h
  · next t ts hc =>
    cases h
    cases hf : c.focus.tree <;> simp [Tree.children, hf] at hc
    subst hc
    simp [effort, effortAbove, hf, Tree.effort, Tree.effortOf]
    omega

/-- Every tree takes more than one move. -/
theorem one_lt_treeEffort (t : Tree) : 1 < t.effort := by
  cases t <;> simp only [Tree.effort] <;> omega

/-- Fewer moves are left once the focus has been dealt with. -/
theorem effort_dealt (c : Cursor) : c.effort true < c.effort false := by
  have := one_lt_treeEffort c.focus.tree
  simp [effort]
  omega

/-- A move on to the next sibling leaves fewer moves. -/
theorem effort_onward {c c' : Cursor} (h : c.onward? = some c') :
    c'.effort false < c.effort true := by
  unfold onward? at h
  split at h
  · cases h
  · next t ts hc =>
    cases h
    simp [effort, hc, Tree.effortOf]

/-- A move up leaves fewer moves. -/
theorem effort_up {c c' : Cursor} (h : c.up? = some c') : c'.effort true < c.effort true := by
  unfold up? at h
  split at h
  · cases h
  · next s above hc =>
    cases h
    simp only [effort, hc, effortAbove, ite_true]
    omega

/-- Walk on from a cursor, when the focus has been dealt with or not, with the imports found so far,
the latest first. -/
def walk : (dealt : Bool) → Cursor → (found : List Import) → List Import
  | true, c, found =>
    match _h : c.onward? with
    | some c' => walk false c' found
    | none =>
      match _h : c.up? with
      | some c' => walk true c' found
      | none => found.reverse
  | false, c, found =>
    if c.focus.tree.isImport then
      walk true c ((c.focus.tree.import? c.focus.position).toList ++ found)
    else
      match _h : c.down? with
      | some c' => walk false c' found
      | none => walk true c found
termination_by dealt c => c.effort dealt
decreasing_by
  · exact effort_onward _h
  · exact effort_up _h
  · exact effort_dealt c
  · exact effort_down _h
  · exact effort_dealt c

end Cursor

/-- Collect the import statements of a tree by walking it. -/
def collectImports (t : Tree) : List Import := (Cursor.root t).walk false []

end ImportLint.Script

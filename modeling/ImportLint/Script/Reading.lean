import Std.Data.TreeMap
import ImportLint.Script.Tree

/-!
# Reading source into a tree

The grammar is ambiguous in its details, so the search keeps every extent that a construct may have
at a place, and for each extent one tree. What a construct may be at a place does not depend on how
the search came there, so it is found once and kept. The search works on what is left of the text
and knows a place by how much that is; nothing in it depends on what came before.

A reading is whatever the search proposes, checked: `read` answers with a tree whose text is the
source and whose constructs have the forms of the grammar. Source that is no program is read
statement by statement, one token being left as a stray where no statement starts.
-/

namespace ImportLint.Script

/-- A place between two tokens. -/
structure Spot where
  /-- The text right after the token before. -/
  here : List Char
  /-- How much text that is. -/
  left : Nat
  /-- The gap ahead. -/
  gap : List Char
  /-- The text from the next token on. -/
  next : List Char
  /-- How much text that is. -/
  size : Nat

/-- The place at the start of a text of known length. -/
def Spot.at (here : List Char) (left : Nat) : Spot :=
  let p := Script.gap here
  ⟨here, left, p.1, p.2, left - p.1.length⟩

/-- A tree, perhaps empty, in front of a row of trees. -/
def consText (kind : List Char → Tree) (text : List Char) (trail : List Tree) : List Tree :=
  if text.isEmpty then trail else kind text :: trail

/-- A way to have come to a place: the trees on the way, the latest first. -/
structure Reach where
  trail : List Tree
  spot : Spot

/-- Go on over a token. -/
def Reach.overToken (t : Terminal) (r : Reach) : Option Reach :=
  match t with
  | .statementEnd inExpression =>
    (Script.statementEnd inExpression .open true r.spot.here).map fun (gap, text, rest) =>
      ⟨.token t text :: consText .gap gap r.trail,
        Spot.at rest (r.spot.left - gap.length - text.length)⟩
  | _ =>
    if t.isJoined then
      (t.scan r.spot.here).map fun (text, rest) =>
        ⟨.token t text :: r.trail, Spot.at rest (r.spot.left - text.length)⟩
    else
      (t.scan r.spot.next).map fun (text, rest) =>
        ⟨.token t text :: consText .gap r.spot.gap r.trail,
          Spot.at rest (r.spot.size - text.length)⟩

/-- The trees that a construct may be at a place, and where each ends. -/
abbrev Extents := List (Tree × Spot)

/-- The order of findings: by construct, then by place. -/
def findingOrder : Construct × Nat → Construct × Nat → Ordering :=
  compareLex (compareOn (·.1)) (compareOn (·.2))

/-- The extents found so far, by construct and place. -/
abbrev Findings := Std.TreeMap (Construct × Nat) Extents findingOrder

/-- Of the ways to have come to one place, the first. -/
def firstOfEach (rs : List Reach) : List Reach :=
  rs.foldl (fun kept r => if kept.any (·.spot.left == r.spot.left) then kept else kept ++ [r]) []

/-- Whether the text starts with one of some words. -/
def startsWithWord (ws : List (List Char)) (s : List Char) : Bool :=
  (word s).any fun p => ws.contains p.1

mutual

/-- Go on over a form, in every way there is. The number bounds the depth of the search. -/
def Form.search (d : Dialect) : Nat → Form → Reach → Findings → List Reach × Findings
  | 0, _, _, found => ([], found)
  | n + 1, f, r, found =>
    match f with
    | .nothing => ([r], found)
    | .token t => ((r.overToken t).toList, found)
    | .part c =>
      let (extents, found) := Construct.search d n c r.spot found
      (extents.map fun (t, s) => ⟨t :: consText .gap r.spot.gap r.trail, s⟩, found)
    | .both f g =>
      let (rs, found) := Form.search d n f r found
      searchFrom d n g (firstOfEach rs) found
    | .either f g =>
      let (rs, found) := Form.search d n f r found
      let (rs', found) := Form.search d n g r found
      (rs ++ rs', found)
    | .many f => searchMany d n f [r] [r] found
    | .only d' f => if d = d' then Form.search d n f r found else ([], found)
    | .barring ws f =>
      if startsWithWord ws r.spot.next then ([], found) else Form.search d n f r found

/-- Go on over a form from each of some places. -/
def searchFrom (d : Dialect) : Nat → Form → List Reach → Findings → List Reach × Findings
  | _, _, [], found => ([], found)
  | 0, _, _, found => ([], found)
  | n + 1, f, r :: rs, found =>
    let (here, found) := Form.search d n f r found
    let (there, found) := searchFrom d n f rs found
    (here ++ there, found)

/-- Go on over a form again and again from the newest places, and collect the places come to. -/
def searchMany (d : Dialect) : Nat → Form → (newest reached : List Reach) → Findings →
    List Reach × Findings
  | _, _, [], reached, found => (reached, found)
  | 0, _, _, reached, found => (reached, found)
  | n + 1, f, newest, reached, found =>
    let (rs, found) := searchFrom d n f newest found
    let fresh := firstOfEach (rs.filter fun r => !reached.any (·.spot.left == r.spot.left))
    searchMany d n f fresh (fresh ++ reached) found

/-- The extents of a construct at a place. -/
def Construct.search (d : Dialect) : Nat → Construct → Spot → Findings → Extents × Findings
  | 0, _, _, found => ([], found)
  | n + 1, c, s, found =>
    match found[(c, s.size)]? with
    | some extents => (extents, found)
    | none =>
      let (rs, found) := Form.search d n (rule c) ⟨[], Spot.at s.next s.size⟩ found
      let extents := (firstOfEach rs).map fun r => (.node c r.trail.reverse, r.spot)
      (extents, found.insert (c, s.size) extents)

end

/-- The longest of several extents. -/
def longest (extents : Extents) : Option (Tree × Spot) :=
  extents.foldl (fun best e => if best.any fun b => b.2.left ≤ e.2.left then best else some e) none

/-- A depth that no search in a text of the given length reaches. -/
def searchDepth (size : Nat) : Nat := 4096 + 512 * size

/-- A token to leave out where no statement starts: a string, a word, a number or one character. -/
def strayToken (s : List Char) : Split :=
  ((stringLiteral s <|> word s <|> numberLiteral s).getD (s.take 1, s.drop 1))

/-- The statements ahead, each as long as can be, with strays between them; the latest tree first.
The number bounds their count. -/
def searchProgram (d : Dialect) : Nat → Reach → Findings → List Tree
  | 0, r, _ => consText .stray r.spot.here r.trail
  | n + 1, r, found =>
    let trail := consText .gap r.spot.gap r.trail
    if r.spot.next.isEmpty then trail
    else
      let (extents, found) := Construct.search d (searchDepth r.spot.size) .statement r.spot found
      match longest extents with
      | some (t, s) => searchProgram d n ⟨t :: trail, s⟩ found
      | none =>
        match htmlComment r.spot.next with
        | some (text, rest) =>
          searchProgram d n ⟨.token .htmlComment text :: trail,
            Spot.at rest (r.spot.size - text.length)⟩ found
        | none =>
          let (text, rest) := strayToken r.spot.next
          searchProgram d n ⟨.stray text :: trail, Spot.at rest (r.spot.size - text.length)⟩ found

/-- The way to the first statement of a text: over the line that names the interpreter, if there is
one. -/
def Reach.start (s : List Char) : Reach :=
  let r : Reach := ⟨[], Spot.at s s.length⟩
  (r.overToken .interpreterLine).getD r

/-- The trees that the search proposes for a text. -/
def propose (d : Dialect) (s : List Char) : List Tree :=
  (searchProgram d ((Reach.start s).spot.size + 1) (Reach.start s) ∅).reverse

/-- **Read** source text: the tree proposed, if it is a reading of the text, and else a program of
which nothing is understood. -/
def read (d : Dialect) (s : List Char) : Tree :=
  let program := Tree.node .program (propose d s)
  if program.text = s && program.conforms d then program else .node .program [.stray s]

end ImportLint.Script

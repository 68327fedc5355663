import ImportLint.Script.Grammar

/-!
# Trees of script source

A **tree** holds its text without loss: every character of the source is in a token, in a gap
between tokens, or in a stray piece that no statement accounts for. So the text of a tree is all
that is needed to say where each part of it stands. A tree **conforms** if each of its constructs
has the form that the grammar gives it; gaps and strays may stand anywhere.
-/

namespace ImportLint.Script

/-- A tree over a source text. -/
inductive Tree where
  /-- Blanks and comments. -/
  | gap (text : List Char)
  /-- Text that belongs to no statement. -/
  | stray (text : List Char)
  | token (t : Terminal) (text : List Char)
  | node (c : Construct) (children : List Tree)
  deriving Repr

namespace Tree

mutual

/-- The text that a tree stands for. -/
def text : Tree → List Char
  | gap s => s
  | stray s => s
  | token _ s => s
  | node _ ts => textOf ts

/-- The text of a row of trees. -/
def textOf : List Tree → List Char
  | [] => []
  | t :: ts => text t ++ textOf ts

end

/-- The text of a gap is the gap itself. -/
@[simp] theorem text_gap (s : List Char) : (gap s).text = s := rfl

/-- The text of a stray token is the token itself. -/
@[simp] theorem text_stray (s : List Char) : (stray s).text = s := rfl

/-- The text of a token is its spelling. -/
@[simp] theorem text_token (t : Terminal) (s : List Char) : (token t s).text = s := rfl

/-- The text of a node is that of its children. -/
@[simp] theorem text_node (c : Construct) (ts : List Tree) : (node c ts).text = textOf ts := rfl

/-- No trees have no text. -/
@[simp] theorem textOf_nil : textOf [] = [] := rfl

/-- The text of trees is that of the first, followed by that of the others. -/
@[simp] theorem textOf_cons (t : Tree) (ts : List Tree) : textOf (t :: ts) = t.text ++ textOf ts :=
  rfl

/-- Whether a tree is a part of no construct: a gap or a stray. -/
def isLoose : Tree → Bool
  | gap _ | stray _ => true
  | _ => false

mutual

/-- Whether some text of a tree is stray. -/
def hasStray : Tree → Bool
  | stray _ => true
  | node _ ts => someStray ts
  | _ => false

/-- Whether some text of a row of trees is stray. -/
def someStray : List Tree → Bool
  | [] => false
  | t :: ts => hasStray t || someStray ts

end

end Tree

/-- Apply a step that shortens a list any number of times: every remainder on the way. -/
def remainders (step : List Tree → List (List Tree)) : Nat → List Tree → List (List Tree)
  | 0, ts => [ts]
  | n + 1, ts =>
    ts :: (step ts).flatMap fun r => if r.length < ts.length then remainders step n r else []

/-- The ways to read a form off the front of a row of trees, each given by the trees that it
leaves. -/
def Form.strip (d : Dialect) : Form → List Tree → List (List Tree)
  | nothing, ts => [ts]
  | token t, ts =>
    match ts.dropWhile Tree.isLoose with
    | .token t' text :: rest => if t = t' && t.admits text then [rest] else []
    | _ => []
  | part c, ts =>
    match ts.dropWhile Tree.isLoose with
    | .node c' _ :: rest => if c = c' then [rest] else []
    | _ => []
  | both f g, ts => (f.strip d ts).flatMap (g.strip d)
  | either f g, ts => f.strip d ts ++ g.strip d ts
  | many f, ts => remainders (f.strip d) ts.length ts
  | only d' f, ts => if d = d' then f.strip d ts else []
  | barring _ f, ts => f.strip d ts

namespace Tree

/-- Whether a row of trees has a form: it can be read off, and nothing is left but gaps and
strays. -/
def haveForm (d : Dialect) (f : Form) (ts : List Tree) : Bool :=
  (f.strip d ts).any fun rest => rest.all isLoose

mutual

/-- Whether each construct in a tree has the form that the grammar gives it. -/
def conforms (d : Dialect) : Tree → Bool
  | node c ts => haveForm d (rule c) ts && allConform d ts
  | _ => true

/-- Whether each construct in a row of trees has the form that the grammar gives it. -/
def allConform (d : Dialect) : List Tree → Bool
  | [] => true
  | t :: ts => conforms d t && allConform d ts

end

end Tree

end ImportLint.Script

import ImportLint.Glob.Bracket

/-!
# Brace alternation

A pattern such as `a/{b,c}` is short for several: its **spellings**. A brace group needs a comma of
its own and a closing brace to be one; else its braces are text like any other, and so are braces
and commas inside a bracket class. The spellings are built from left to right. A group that is still
open keeps the spellings before it and those of its finished alternatives, so it can turn into text
again if the pattern ends before the group does.
-/

namespace ImportLint.Glob

/-- The spellings that a piece of a pattern is short for, in order. -/
abbrev Spellings := List (List Char)

namespace Spellings

/-- Every spelling of one piece before every spelling of the next, the first piece varying
slowest. -/
def append (xs ys : Spellings) : Spellings := xs.flatMap fun x => ys.map (x ++ ·)

/-- The spellings of pieces that follow one another with the same text between them. -/
def between (sep : List Char) : List Spellings → Spellings
  | [] => [[]]
  | [xs] => xs
  | xs :: rest => append xs (append [sep] (between sep rest))

end Spellings

/-- What brace alternation tells apart in a pattern. -/
inductive BraceLexeme where
  | open
  | close
  | comma
  /-- A bracket class, or any other character. -/
  | text (s : List Char)
  deriving DecidableEq, Repr

/-- A pattern as braces, commas and text. A bracket that opens no class is text. -/
def braceLexemes : List Char → List BraceLexeme
  | [] => []
  | '\x7b' :: r => .open :: braceLexemes r
  | '\x7d' :: r => .close :: braceLexemes r
  | ',' :: r => .comma :: braceLexemes r
  | '[' :: r =>
    match _h : Bracket.split r with
    | some (b, rest) => .text b.text :: braceLexemes rest
    | none => .text ['['] :: braceLexemes r
  | c :: r => .text [c] :: braceLexemes r
termination_by s => s.length
decreasing_by
  all_goals simp only [List.length_cons]
  case _ => omega
  case _ => omega
  case _ => omega
  case _ => have := Bracket.length_lt_of_split _h; omega
  case _ => omega
  case _ => omega

/-- A group that is not closed yet. -/
structure OpenGroup where
  /-- The spellings of what comes before the group. -/
  before : Spellings
  /-- The spellings of its finished alternatives, the latest first. -/
  finished : List Spellings

/-- A pattern read in part: the groups open around the place, the innermost first, and the spellings
of what was read since the last of them opened or came to a comma. -/
structure BraceState where
  around : List OpenGroup
  current : Spellings

namespace BraceState

/-- Nothing read. -/
def start : BraceState := ⟨[], [[]]⟩

/-- Read a piece with the given spellings. -/
def append (st : BraceState) (xs : Spellings) : BraceState :=
  { st with current := st.current.append xs }

/-- Read one lexeme. -/
def next (st : BraceState) : BraceLexeme → BraceState
  | .text s => st.append [s]
  | .open => ⟨⟨st.current, []⟩ :: st.around, [[]]⟩
  | .comma =>
    match st.around with
    | [] => st.append [[',']]
    | g :: gs => ⟨⟨g.before, st.current :: g.finished⟩ :: gs, [[]]⟩
  | .close =>
    match st.around with
    | [] => st.append [['\x7d']]
    | ⟨before, []⟩ :: gs =>
      ⟨gs, before.append (Spellings.append [['\x7b']] (st.current.append [['\x7d']]))⟩
    | ⟨before, finished⟩ :: gs => ⟨gs, before.append (finished.reverse.flatten ++ st.current)⟩

/-- The spellings when the pattern ends: groups that are still open are text. -/
def finish (st : BraceState) : Spellings :=
  st.around.foldl (fun inner g =>
      g.before.append
        (Spellings.append [['\x7b']] (Spellings.between [','] (g.finished.reverse ++ [inner]))))
    st.current

end BraceState

/-- The spellings of a pattern. -/
def spellings (pattern : List Char) : Spellings :=
  ((braceLexemes pattern).foldl BraceState.next BraceState.start).finish

end ImportLint.Glob

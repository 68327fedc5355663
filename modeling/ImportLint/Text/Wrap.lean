import ImportLint.Text.Pieces

/-!
# Wrapped text

A text in lines of limited width, broken at blanks. Each line takes as many words as fit; a word
that is too wide stands alone.
-/

namespace ImportLint

/-- Words laid out after a line that has been begun. -/
def fillLines (width : Nat) (line : List Char) : List (List Char) → List (List Char)
  | [] => [line]
  | w :: ws =>
    if line.length + 1 + w.length ≤ width then fillLines width (line ++ ' ' :: w) ws
    else line :: fillLines width w ws

/-- The lines of a text. -/
def wrap (width : Nat) (s : List Char) : List (List Char) :=
  match pieces ' ' s with
  | [] => []
  | w :: ws => fillLines width w ws

end ImportLint

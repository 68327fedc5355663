import ImportLint.Text.Utf8

/-!
# Positions in a text

A **position** counts what comes before a place: bytes, newlines, and bytes since the last newline.
Passing over text is the only way to move, so a position is a function of the text before it.
-/

namespace ImportLint

/-- A place in a text: its byte offset, its line and its byte column, all counted from zero. -/
structure Position where
  offset : Nat := 0
  line : Nat := 0
  column : Nat := 0
  deriving DecidableEq, Repr

namespace Position

/-- The position after one more character. -/
def next (p : Position) (c : Char) : Position :=
  if c = '\n' then ⟨p.offset + 1, p.line + 1, 0⟩
  else ⟨p.offset + c.utf8Size, p.line, p.column + c.utf8Size⟩

/-- The position after some more text. -/
def after (p : Position) (text : List Char) : Position := text.foldl next p

/-- No text leaves a position where it is. -/
@[simp] theorem after_nil (p : Position) : p.after [] = p := rfl

/-- A text is passed character by character. -/
@[simp] theorem after_cons (p : Position) (c : Char) (s : List Char) :
    p.after (c :: s) = (p.next c).after s := rfl

/-- A text is passed part by part. -/
@[simp] theorem after_append (p : Position) (s t : List Char) :
    p.after (s ++ t) = (p.after s).after t := by
  simp [after]

/-- Passing over a text adds its bytes to the offset. -/
@[simp] theorem offset_after (p : Position) (s : List Char) :
    (p.after s).offset = p.offset + Utf8.size s := by
  induction s generalizing p with
  | nil => rfl
  | cons c s ih =>
    have hc : (p.next c).offset = p.offset + c.utf8Size := by
      unfold next
      split
      · next h => subst h; rfl
      · rfl
    rw [after_cons, ih, hc, Utf8.size_cons, Nat.add_assoc]

end Position

end ImportLint

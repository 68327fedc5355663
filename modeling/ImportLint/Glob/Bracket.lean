/-!
# Bracket classes

A **bracket class** such as `[a-z_]` or `[!/]` stands for one character. Its first member may be a
closing bracket; after that the next closing bracket ends it. Whatever else it holds (braces,
commas, stars, slashes) is just a member. Everything that reads patterns finds the end of a class by
`Bracket.split`.
-/

namespace ImportLint.Glob

/-- A bracket class: its members as written, and whether it stands for all other characters. -/
structure Bracket where
  negated : Bool
  members : List Char
  deriving DecidableEq, Repr

namespace Bracket

/-- Members up to the closing bracket, the first of which may be a closing bracket itself. -/
def splitMembers : List Char → Option (List Char × List Char)
  | [] => none
  | first :: r =>
    match r.dropWhile (· != ']') with
    | [] => none
    | _ :: rest => some (first :: r.takeWhile (· != ']'), rest)

/-- Read a class after its opening bracket; `none` if it is never closed. -/
def split : List Char → Option (Bracket × List Char)
  | '!' :: r => (splitMembers r).map fun p => (⟨true, p.1⟩, p.2)
  | r => (splitMembers r).map fun p => (⟨false, p.1⟩, p.2)

/-- The class as written. -/
def text (b : Bracket) : List Char :=
  '[' :: (if b.negated then '!' :: b.members else b.members) ++ [']']

/-- Reading members loses nothing but the closing bracket. -/
theorem eq_append_of_splitMembers {s m rest : List Char} (h : splitMembers s = some (m, rest)) :
    s = m ++ ']' :: rest := by
  cases s with
  | nil => cases h
  | cons c r =>
    simp only [splitMembers] at h
    split at h
    · cases h
    · next x rest' hd =>
      simp only [Option.some.injEq, Prod.mk.injEq] at h
      have hx : x = ']' := by
        have := List.head?_dropWhile_not (· != ']') r
        rw [hd] at this
        simpa using this
      subst hx
      rw [← h.1, ← h.2, List.cons_append, ← hd, List.takeWhile_append_dropWhile]

/-- Reading a class loses nothing: the class as written and what follows it are the text. -/
theorem text_append_of_split {s rest : List Char} {b : Bracket} (h : split s = some (b, rest)) :
    b.text ++ rest = '[' :: s := by
  unfold split at h
  split at h
  all_goals
    obtain ⟨p, hp, he⟩ := Option.map_eq_some_iff.1 h
    cases he
    simp [text, eq_append_of_splitMembers (show splitMembers _ = some (p.1, p.2) from hp)]

/-- What follows a class is shorter than the text after its opening bracket. -/
theorem length_lt_of_split {s rest : List Char} {b : Bracket} (h : split s = some (b, rest)) :
    rest.length < s.length := by
  have hl := congrArg List.length (text_append_of_split h)
  simp only [text, List.length_append, List.length_cons, List.length_nil] at hl
  omega

/-- The ranges of characters that the members denote, read from the left: `x-y`, or a single one. -/
def ranges : List Char → List (Char × Char)
  | x :: '-' :: y :: r => (x, y) :: ranges r
  | x :: r => (x, x) :: ranges r
  | [] => []

/-- Whether a character is one of those that the class stands for. -/
def admits (b : Bracket) (c : Char) : Bool :=
  ((ranges b.members).any fun p => p.1 ≤ c && c ≤ p.2) != b.negated

end Bracket

end ImportLint.Glob

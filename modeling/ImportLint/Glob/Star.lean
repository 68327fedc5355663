import ImportLint.Text.Pieces

/-!
# Runs of stars

Between two slashes, two stars or more stand for any number of path segments if there is nothing
else, and count as one star if there is. `collapseStars` writes patterns that way.
-/

namespace ImportLint.Glob

/-- Shorten every run of stars to one. -/
def singleStars : List Char → List Char
  | '*' :: '*' :: r => singleStars ('*' :: r)
  | c :: r => c :: singleStars r
  | [] => []

/-- A segment of stars only, at least two, becomes two; in any other each run of stars becomes
one. -/
def collapseSegment (s : List Char) : List Char :=
  if 2 ≤ s.length && s.all (· == '*') then ['*', '*'] else singleStars s

/-- Collapse the stars of every segment. -/
def collapseStars (pattern : List Char) : List Char :=
  joinPieces '/' ((pieces '/' pattern).map collapseSegment)

end ImportLint.Glob

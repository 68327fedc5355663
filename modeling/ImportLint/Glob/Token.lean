import ImportLint.Glob.Bracket

/-!
# Glob tokens

A spelling of a pattern is a list of tokens, each of which matches some characters of a text.
Reading one can fail in three ways; a fault names the place, in characters from the start.
-/

namespace ImportLint.Glob

/-- One unit of a glob. -/
inductive Token where
  /-- The character itself. -/
  | char (c : Char)
  /-- One character. -/
  | anyChar
  /-- One character that a class admits. -/
  | bracket (b : Bracket)
  /-- Any number of characters within a segment. -/
  | anySequence
  /-- Any number of whole segments. -/
  | anySegments
  deriving DecidableEq, Repr

/-- Why a spelling is no glob. -/
inductive FaultKind where
  /-- More than two stars in a row. -/
  | tooManyStars
  /-- Two stars that are not a whole segment. -/
  | partialSegments
  /-- A class that is never closed. -/
  | openBracket
  deriving DecidableEq, Repr

/-- The wording of a fault. -/
def FaultKind.message : FaultKind → String
  | tooManyStars => "wildcards are either regular `*` or recursive `**`"
  | partialSegments => "recursive wildcards must form a single path component"
  | openBracket => "invalid range pattern"

/-- A fault and its place. -/
structure Fault where
  position : Nat
  kind : FaultKind
  deriving DecidableEq, Repr

/-- A fault in full. -/
def Fault.message (f : Fault) : String :=
  s!"Pattern syntax error near position {f.position}: {f.kind.message}"

/-- Read tokens from the character at a position on. `before` is the character before it, and
`tokens` holds what was read so far, the latest first. A second `**` right after a first is dropped,
unless the first opens the pattern. -/
def tokensFrom (position : Nat) (before : Option Char) (tokens : List Token) :
    List Char → Except Fault (List Token)
  | [] => .ok tokens.reverse
  | '?' :: r => tokensFrom (position + 1) (some '?') (.anyChar :: tokens) r
  | '*' :: '*' :: '*' :: _ => .error ⟨position + 2, .tooManyStars⟩
  | '*' :: '*' :: r =>
    if before.all (· == '/') then
      let tokens :=
        match tokens with
        | .anySegments :: _ :: _ => tokens
        | _ => .anySegments :: tokens
      match r with
      | [] => .ok tokens.reverse
      | '/' :: r' => tokensFrom (position + 3) (some '/') tokens r'
      | _ => .error ⟨position + 2, .partialSegments⟩
    else .error ⟨position - 1, .partialSegments⟩
  | '*' :: r => tokensFrom (position + 1) (some '*') (.anySequence :: tokens) r
  | '[' :: r =>
    match _h : Bracket.split r with
    | some (b, rest) => tokensFrom (position + b.text.length) (some ']') (.bracket b :: tokens) rest
    | none => .error ⟨position, .openBracket⟩
  | c :: r => tokensFrom (position + 1) (some c) (.char c :: tokens) r
termination_by s => s.length
decreasing_by
  all_goals simp only [List.length_cons]
  case _ => omega
  case _ => omega
  case _ => omega
  case _ => have := Bracket.length_lt_of_split _h; omega
  case _ => omega

/-- Read a spelling as tokens. -/
def tokenise (spelling : List Char) : Except Fault (List Token) := tokensFrom 0 none [] spelling

end ImportLint.Glob

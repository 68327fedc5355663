import ImportLint.Glob.Token
import ImportLint.Glob.Star

/-!
# Matching tokens against a text

A sequence of characters is matched by trying ever longer ones. The answer has three values, so that
the search ends early: when the text runs out before the tokens do, no longer sequence can help. No
wildcard matches a slash within a segment, nor a dot at the start of one.
-/

namespace ImportLint.Glob

/-- What comes of matching some tokens against the rest of a text. -/
inductive Outcome where
  | matched
  /-- Not this way: a sequence before might be longer. -/
  | mismatch
  /-- Not at all: the text is too short for the tokens. -/
  | exhausted
  deriving DecidableEq, Repr

/-- Whether a token that stands for one character matches one, which may start a segment. -/
def Token.admits (atStart : Bool) (c : Char) : Token → Bool
  | .char d => c == d
  | .anyChar => c != '/' && !(atStart && c == '.')
  | .bracket b => c != '/' && !(atStart && c == '.') && b.admits c
  | _ => false

mutual

/-- Match tokens against a text, which may start a segment. -/
def matchFrom (atStart : Bool) : List Token → List Char → Outcome
  | [], [] => .matched
  | [], _ :: _ => .mismatch
  | .anySequence :: ts, s =>
    match matchFrom atStart ts s with
    | .mismatch => matchLonger atStart true ts s
    | o => o
  | .anySegments :: ts, s =>
    match matchFrom atStart ts s with
    | .mismatch => matchLonger atStart false ts s
    | o => o
  | _ :: _, [] => .exhausted
  | t :: ts, c :: s => if t.admits atStart c then matchFrom (c == '/') ts s else .mismatch
termination_by ts s => (ts.length, s.length, 0)

/-- Match tokens against a text after a sequence that takes at least one character more, and that
stays within a segment or else ends with one. A sequence that takes all of the text may end
anywhere. -/
def matchLonger (atStart : Bool) (within : Bool) (ts : List Token) : List Char → Outcome
  | [] => matchFrom atStart ts []
  | c :: s =>
    if atStart && c == '.' then .mismatch
    else if within && c == '/' then .mismatch
    else if !within && c != '/' then matchLonger false within ts s
    else
      match matchFrom (c == '/') ts s with
      | .mismatch => matchLonger (c == '/') within ts s
      | o => o
termination_by s => (ts.length, s.length, 1)

end

/-- Whether tokens match a whole text. -/
def accepts (ts : List Token) (text : List Char) : Bool := matchFrom true ts text == .matched

end ImportLint.Glob

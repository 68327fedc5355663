import ImportLint.Glob.Pattern

/-!
# Matchers

The rule compares paths and module specifiers with patterns by asking a **matcher**, one question at
a time. What matching means is for the matcher to say, and it may take note of what it is asked.
-/

namespace ImportLint

/-- A question to a matcher: whether a text matches a pattern. -/
structure Question where
  text : String
  pattern : Glob.Pattern
  deriving Repr

/-- What answers such questions. -/
abbrev Matcher (m : Type → Type) := Question → m Bool

namespace Matcher

/-- Patterns as globs. -/
def glob : Matcher Id := fun q => q.pattern.accepts q.text

/-- Patterns as texts to start with. -/
def literalStart : Matcher Id := fun q => (stripPrefix? q.pattern.text.toList q.text.toList).isSome

/-- Patterns as texts to end with. -/
def literalEnd : Matcher Id := fun q => (stripSuffix? q.pattern.text.toList q.text.toList).isSome

/-- A matcher that keeps the questions it has been asked, the last one first. -/
def recorded (ask : Matcher Id) : Matcher (StateM (List Question)) := fun q => do
  modify (q :: ·)
  pure (ask q)

end Matcher

end ImportLint

import ImportLint.Glob.Brace
import ImportLint.Proofs.Glob.Bracket

/-!
# Reading the braces of a pattern

A pattern is read from the left into braces, commas and text, and a bracket class is text. How a
part of a pattern reads depends on what follows it only if it leaves a class open.
-/

namespace ImportLint.Glob

/-- What a lexeme stands for in a pattern. -/
def BraceLexeme.chars : BraceLexeme → List Char
  | .open => ['\x7b']
  | .close => ['\x7d']
  | .comma => [',']
  | .text s => s

/-- A character as a lexeme of its own. -/
def BraceLexeme.ofChar (c : Char) : BraceLexeme :=
  if c = '\x7b' then .open else if c = '\x7d' then .close else if c = ',' then .comma else .text [c]

/-- The lexeme of a character is spelled as this character. -/
@[simp] theorem BraceLexeme.chars_ofChar (c : Char) : (BraceLexeme.ofChar c).chars = [c] := by
  unfold BraceLexeme.ofChar
  split_ifs <;> simp_all [BraceLexeme.chars]

attribute [local simp] braceLexemes in
/-- The empty text has no lexemes. -/
@[simp] theorem braceLexemes_nil : braceLexemes [] = [] := by simp

/-- A character that is no bracket is a lexeme. -/
theorem braceLexemes_cons {c : Char} (h : c ≠ '[') (r : List Char) :
    braceLexemes (c :: r) = .ofChar c :: braceLexemes r := by
  rw [braceLexemes.eq_def]
  split <;> simp_all [BraceLexeme.ofChar]

/-- A class that is closed is one lexeme. -/
theorem braceLexemes_bracket {r rest : List Char} {b : Bracket}
    (h : Bracket.split r = some (b, rest)) :
    braceLexemes ('[' :: r) = .text b.text :: braceLexemes rest := by
  rw [braceLexemes]
  split <;> simp_all

/-- A bracket that no other closes is a lexeme of its own. -/
theorem braceLexemes_openBracket {r : List Char} (h : Bracket.split r = none) :
    braceLexemes ('[' :: r) = .text ['['] :: braceLexemes r := by
  rw [braceLexemes]
  split <;> simp_all

/-- An opening brace opens a group. -/
@[simp] theorem braceLexemes_open (r : List Char) :
    braceLexemes ('\x7b' :: r) = .open :: braceLexemes r := braceLexemes_cons (by decide) r

/-- A closing brace closes a group. -/
@[simp] theorem braceLexemes_close (r : List Char) :
    braceLexemes ('\x7d' :: r) = .close :: braceLexemes r := braceLexemes_cons (by decide) r

/-- A comma separates alternatives. -/
@[simp] theorem braceLexemes_comma (r : List Char) :
    braceLexemes (',' :: r) = .comma :: braceLexemes r := braceLexemes_cons (by decide) r

/-- Induction along the reading of a text: a class is passed at once, and so is any other
character. -/
@[elab_as_elim]
theorem lexing_induction {motive : List Char → Prop} (s : List Char) (nil : motive [])
    (cons : ∀ c r, c ≠ '[' → motive r → motive (c :: r))
    (bracket : ∀ r b rest, Bracket.split r = some (b, rest) → motive rest → motive ('[' :: r))
    (openBracket : ∀ r, Bracket.split r = none → motive r → motive ('[' :: r)) : motive s := by
  fun_induction braceLexemes s with
  | case1 => exact nil
  | case2 r ih => exact cons _ r (by decide) ih
  | case3 r ih => exact cons _ r (by decide) ih
  | case4 r ih => exact cons _ r (by decide) ih
  | case5 r b rest h ih => exact bracket r b rest h ih
  | case6 r h ih => exact openBracket r h ih
  | case7 c r _ _ _ hc ih => exact cons c r hc ih

/-- Reading loses nothing. -/
@[simp] theorem flatMap_chars_braceLexemes (s : List Char) :
    (braceLexemes s).flatMap BraceLexeme.chars = s := by
  fun_induction braceLexemes s with
  | case1 => rfl
  | case2 r ih => simp [BraceLexeme.chars, ih]
  | case3 r ih => simp [BraceLexeme.chars, ih]
  | case4 r ih => simp [BraceLexeme.chars, ih]
  | case5 r b rest h ih => simpa [BraceLexeme.chars, ih] using Bracket.text_append_of_split h
  | case6 r h ih => simp [BraceLexeme.chars, ih]
  | case7 c r _ _ _ _ ih => simp [BraceLexeme.chars, ih]

/-! ## Places outside bracket classes -/

/-- Whether the place after `n` characters of a pattern, read from the left, lies outside its
bracket classes. -/
def isOutside : Nat → List Char → Bool
  | 0, _ => true
  | _ + 1, [] => false
  | n + 1, '[' :: r =>
    match _h : Bracket.split r with
    | some (_, rest) => r.length - rest.length ≤ n && isOutside (n - (r.length - rest.length)) rest
    | none => isOutside n r
  | n + 1, _ :: r => isOutside n r
termination_by _ s => s.length
decreasing_by
  all_goals simp only [List.length_cons]
  case _ => have := Bracket.length_lt_of_split _h; omega
  case _ => omega
  case _ => omega

/-- Whether every bracket of a text that may open a class opens one that is closed in the text. -/
def ClosesClasses (s : List Char) : Prop := .text ['['] ∉ braceLexemes s

/-- Whether a text closes its classes is decided by its lexemes. -/
instance (s : List Char) : Decidable (ClosesClasses s) :=
  inferInstanceAs (Decidable (.text ['['] ∉ braceLexemes s))

/-- A text that closes its classes reads alike whatever follows it. -/
theorem ClosesClasses.braceLexemes_append {s : List Char} (h : ClosesClasses s) (t : List Char) :
    braceLexemes (s ++ t) = braceLexemes s ++ braceLexemes t := by
  unfold ClosesClasses at h
  fun_induction braceLexemes s with
  | case1 => rfl
  | case2 r ih => simp [ih (by simpa using h)]
  | case3 r ih => simp [ih (by simpa using h)]
  | case4 r ih => simp [ih (by simpa using h)]
  | case5 r b rest hs ih =>
    rw [List.cons_append, braceLexemes_bracket (Bracket.split_append hs t),
      ih fun hm => h (List.mem_cons_of_mem _ hm), List.cons_append]
  | case6 r hs => simp at h
  | case7 c r _ _ _ hc ih =>
    rw [List.cons_append, braceLexemes_cons hc, ih fun hm => h (List.mem_cons_of_mem _ hm),
      List.cons_append]
    simp_all [BraceLexeme.ofChar]

/-- A place behind a character that is no bracket is outside if it is in the rest. -/
theorem isOutside_cons {c : Char} (h : c ≠ '[') (n : Nat) (r : List Char) :
    isOutside (n + 1) (c :: r) = isOutside n r := by
  rw [isOutside]
  simpa using h

/-- A place behind a class that is closed is outside if it is neither in the class nor in one of the
rest. -/
theorem isOutside_bracket {r rest : List Char} {b : Bracket} (h : Bracket.split r = some (b, rest))
    (n : Nat) : isOutside (n + 1) ('[' :: r) =
      (r.length - rest.length ≤ n && isOutside (n - (r.length - rest.length)) rest) := by
  rw [isOutside]
  split <;> simp_all

/-- A place behind an open bracket is outside if it is in the rest. -/
theorem isOutside_openBracket {r : List Char} (h : Bracket.split r = none) (n : Nat) :
    isOutside (n + 1) ('[' :: r) = isOutside n r := by
  rw [isOutside]
  split <;> simp_all

/-- A class before an outside place ends before it. -/
theorem exists_eq_inner_append_of_isOutside {a w rest : List Char} {b : Bracket}
    (hs : Bracket.split (a ++ w) = some (b, rest))
    (h : isOutside (a.length + 1) ('[' :: (a ++ w)) = true) :
    ∃ a', a = b.inner ++ a' ∧ rest = a' ++ w ∧ isOutside a'.length (a' ++ w) = true := by
  rw [isOutside_bracket hs, Bool.and_eq_true, decide_eq_true_eq] at h
  have hinner := Bracket.eq_inner_append hs
  -- The place is outside, so it is not before the end of the class.
  have hlen : b.inner.length ≤ a.length := by
    have hlen := congrArg List.length hinner
    simp only [List.length_append] at hlen h
    omega
  have hprefix : b.inner <+: a := List.prefix_of_prefix_length_le (List.prefix_append b.inner rest)
    (hinner ▸ List.prefix_append a _) hlen
  obtain ⟨a', rfl⟩ := hprefix
  rw [List.append_assoc, List.append_cancel_left_eq] at hinner
  obtain rfl := hinner
  have hplace : (b.inner ++ a').length - ((b.inner ++ a' ++ w).length - (a' ++ w).length) =
      a'.length := by
    simp only [List.length_append]
    omega
  rw [hplace] at h
  exact ⟨a', rfl, rfl, h.2⟩

/-- What stands before a brace outside all classes reads alike if what follows is replaced by text
that closes no class. -/
theorem exists_lexemes_of_isOutside {a v : List Char}
    (h : isOutside a.length (a ++ '\x7b' :: v) = true) :
    ∃ ls, ∀ t, (']' ∈ t → ']' ∈ v) → braceLexemes (a ++ t) = ls ++ braceLexemes t := by
  -- By induction on the length, since a class is passed at once.
  induction hn : a.length using Nat.strongRecOn generalizing a with
  | ind n ih =>
    have ih : ∀ a' : List Char, a'.length < a.length →
        isOutside a'.length (a' ++ '\x7b' :: v) = true → ∃ ls, ∀ t, (']' ∈ t → ']' ∈ v) →
          braceLexemes (a' ++ t) = ls ++ braceLexemes t :=
      fun a' ha' h' => ih a'.length (hn ▸ ha') h' rfl
    cases a with
    | nil => exact ⟨[], fun _ _ => rfl⟩
    | cons c a =>
      rw [List.length_cons, List.cons_append] at h
      by_cases hc : c = '['
      · subst hc
        -- A bracket that opens no class here opens none either with the other text after it.
        cases hs : Bracket.split (a ++ '\x7b' :: v) with
        | none =>
          rw [isOutside_openBracket hs] at h
          obtain ⟨ls, hls⟩ := ih a (by simp) h
          refine ⟨.text ['['] :: ls, fun t ht => ?_⟩
          rw [List.cons_append, List.cons_append, ← hls t ht,
            braceLexemes_openBracket (Bracket.split_append_eq_none (by decide) hs ht)]
        | some p =>
          obtain ⟨a', rfl, hrest, h'⟩ := exists_eq_inner_append_of_isOutside hs h
          have hlen : a'.length < ('[' :: (p.1.inner ++ a')).length := by
            rw [List.length_cons, List.length_append]
            omega
          obtain ⟨ls, hls⟩ := ih a' hlen h'
          refine ⟨.text p.1.text :: ls, fun t ht => ?_⟩
          rw [List.append_assoc] at hs
          rw [List.cons_append, List.append_assoc, List.cons_append, ← hls t ht,
            braceLexemes_bracket (Bracket.split_inner_append hs _)]
      · rw [isOutside_cons hc] at h
        obtain ⟨ls, hls⟩ := ih a (by simp) h
        refine ⟨.ofChar c :: ls, fun t ht => ?_⟩
        rw [List.cons_append, List.cons_append, ← hls t ht, braceLexemes_cons hc]

end ImportLint.Glob

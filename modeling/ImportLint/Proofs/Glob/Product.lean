import ImportLint.Proofs.Glob.Alternation

/-!
# Products of spellings

A part of a pattern that closes its groups and its classes is a factor of the pattern: its spellings
come before those of what follows it, each with each, and the first part varies slowest. A group
with alternatives of its own has the spellings of one alternative after those of the other.
-/

namespace ImportLint.Glob

/-! ## Outside all groups -/

namespace BraceState

variable (gs : List OpenGroup) (cur : Spellings)

/-- A state put upon others ends as one more piece of theirs. -/
theorem finish_onto (st : BraceState) :
    (onto gs cur st).finish = finish ⟨gs, cur.append st.finish⟩ := by
  obtain ⟨around, current⟩ := st
  -- On the open groups: the innermost ends first.
  induction around generalizing current with
  | nil => rfl
  | cons g around ih =>
    cases around with
    | nil => simp [onto, aroundOnto, finish, Spellings.append_assoc]
    | cons g' around => exact ih _

/-- Outside all groups what is read next does not depend on what was read before. -/
theorem next_onto_nil (st : BraceState) (l : BraceLexeme) :
    (onto [] cur st).next l = onto [] cur (st.next l) := by
  by_cases h : st.around = [] → l ≠ .comma ∧ l ≠ .close
  · exact next_onto [] cur h
  · obtain ⟨around, current⟩ := st
    obtain ⟨rfl, hl⟩ := Classical.not_imp.1 h
    cases l <;> simp_all [next, onto, aroundOnto, append, Spellings.append_assoc]

/-- Lexemes read onto no group are put behind the spellings so far. -/
theorem run_onto_nil (st : BraceState) (ls : List BraceLexeme) :
    (onto [] cur st).run ls = onto [] cur (st.run ls) := by
  induction ls generalizing st with
  | nil => rfl
  | cons l ls ih => rw [run_cons, run_cons, next_onto_nil, ih]

/-- What follows a part outside all groups is one more factor. -/
theorem finish_run (ls : List BraceLexeme) :
    (run ⟨[], cur⟩ ls).finish = cur.append (spellingsOf ls) := by
  rw [← onto_start, run_onto_nil, finish_onto]
  rfl

/-! ## Balanced parts -/

/-- Whether lexemes, from within some groups of their own, close what they open and nothing else. -/
def isBalanced : Nat → List BraceLexeme → Bool
  | depth, [] => depth == 0
  | depth, .text _ :: ls => isBalanced depth ls
  | depth, .open :: ls => isBalanced (depth + 1) ls
  | depth, .comma :: ls => isBalanced depth ls
  | depth, .close :: ls => depth != 0 && isBalanced (depth - 1) ls

/-- An alternative is balanced. -/
theorem isBalanced_of_isAlternative {depth : Nat} {ls : List BraceLexeme}
    (h : isAlternative depth ls = true) : isBalanced depth ls = true := by
  induction ls generalizing depth with
  | nil => exact h
  | cons l ls ih => cases l <;> simp_all [isAlternative, isBalanced]

/-- After a balanced part all groups are closed. -/
theorem around_run {st : BraceState} {ls : List BraceLexeme}
    (h : isBalanced st.around.length ls = true) : (st.run ls).around = [] := by
  induction ls generalizing st with
  | nil => simpa [isBalanced] using h
  | cons l ls ih =>
    refine ih ?_
    obtain ⟨around, current⟩ := st
    cases l with
    | text s => exact h
    | «open» => exact h
    | comma => cases around <;> exact h
    | close =>
      cases around with
      | nil => cases h
      | cons g around => simpa [isBalanced, next_close g.before g.finished] using h

/-- **A balanced part is a factor** of the lexemes that it starts. -/
theorem spellingsOf_append {ls : List BraceLexeme} (h : isBalanced 0 ls = true)
    (ms : List BraceLexeme) :
    spellingsOf (ls ++ ms) = (spellingsOf ls).append (spellingsOf ms) := by
  rcases hst : start.run ls with ⟨around, current⟩
  have haround : around = [] := by
    have hrun := @around_run start ls h
    rwa [hst] at hrun
  have hls : spellingsOf ls = current := by
    rw [spellingsOf, hst, haround]
    rfl
  rw [hls, spellingsOf, run_append, hst, haround, finish_run]

/-- **A group** has the spellings of its alternatives, one after the other. -/
theorem spellingsOf_group {alts : List (List BraceLexeme)} (hlen : 2 ≤ alts.length)
    (halt : ∀ a ∈ alts, isAlternative 0 a = true) (rest : List BraceLexeme) :
    spellingsOf (.open :: (joinPieces .comma alts ++ .close :: rest)) =
      Spellings.append (alts.flatMap spellingsOf) (spellingsOf rest) := by
  have hne : alts ≠ [] := by
    rintro rfl
    simp at hlen
  rw [spellingsOf, run_cons]
  show (run ⟨⟨[[]], []⟩ :: [], [[]]⟩ _).finish = _
  rw [run_alternatives [] [[]] hne halt, groupSpellings_true (by simpa using hlen), finish_run,
    Spellings.empty_append, List.flatMap_def, List.reverse_nil, List.nil_append]

end BraceState

/-- Whether a text is **balanced**: it closes the groups and the classes that it opens, and nothing
else. -/
structure IsBalanced (x : List Char) : Prop where
  balanced : BraceState.isBalanced 0 (braceLexemes x) = true
  closes : ClosesClasses x

/-- Whether a text is balanced is decided by its lexemes. -/
instance (x : List Char) : Decidable (IsBalanced x) :=
  decidable_of_iff (BraceState.isBalanced 0 (braceLexemes x) = true ∧ ClosesClasses x)
    ⟨fun h => ⟨h.1, h.2⟩, fun h => ⟨h.balanced, h.closes⟩⟩

/-- **Alternation is a product in order.** The spellings of a balanced text and whatever follows it
are those of the text, each before those of the rest; and those of a group are those of its
alternatives, one after the other. -/
theorem spellings_product :
    (∀ p q, IsBalanced p → spellings (p ++ q) = (spellings p).flatMap fun x =>
      (spellings q).map (x ++ ·)) ∧
    ∀ xs : List (List Char), 2 ≤ xs.length → (∀ x ∈ xs, IsAlternative x) →
      spellings (group xs) = xs.flatMap spellings := by
  constructor
  · intro p q hp
    show BraceState.spellingsOf (braceLexemes (p ++ q)) = _
    rw [hp.closes.braceLexemes_append, BraceState.spellingsOf_append hp.balanced]
    rfl
  · intro xs hlen halt
    have hne : xs ≠ [] := by
      rintro rfl
      simp at hlen
    -- The group is read as its lexemes, an alternative at a time.
    have hlexemes := braceLexemes_group hne (fun x hx => (halt x hx).closes) []
    have hbalanced : ∀ ls ∈ xs.map braceLexemes, BraceState.isAlternative 0 ls = true := by
      simpa using fun x hx => (halt x hx).balanced
    rw [List.append_nil] at hlexemes
    show BraceState.spellingsOf (braceLexemes (group xs)) = _
    rw [hlexemes, BraceState.spellingsOf_group (by simpa using hlen) hbalanced,
      List.flatMap_map, braceLexemes_nil]
    exact Spellings.append_empty _

/-- A balanced text with a comma outside its groups, and a class that holds one, before a group that
is left open. -/
theorem spellings_product_open : IsBalanced "a,\x7bb,c[,]\x7d".toList ∧
    spellings "a,\x7bb,c[,]\x7d\x7bd".toList = ["a,b\x7bd".toList, "a,c[,]\x7bd".toList] ∧
    spellings (group ["\x7bx\x7d".toList, "\x7by,z\x7d".toList]) =
      ["\x7bx\x7d".toList, "y".toList, "z".toList] := by
  have hp : IsBalanced "a,\x7bb,c[,]\x7d".toList := by decide +kernel
  obtain ⟨hproduct, hgroup⟩ := spellings_product
  refine ⟨hp, (hproduct _ "\x7bd".toList hp).trans (by decide +kernel), ?_⟩
  exact (hgroup _ (by decide) (by decide +kernel)).trans (by decide +kernel)

end ImportLint.Glob

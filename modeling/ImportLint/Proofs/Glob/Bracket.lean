import ImportLint.Glob.Bracket
import Mathlib.Data.List.TakeWhile

/-!
# Where a bracket class ends

A class ends at the first closing bracket after its first member, and there is no class if there is
none. So whether there is one, and which, is known once its end has been read.
-/

namespace ImportLint.Glob.Bracket

/-- Members are a first one and others, up to the first closing bracket after it. -/
theorem splitMembers_eq_some_iff {s m rest : List Char} :
    splitMembers s = some (m, rest) ↔
      ∃ c m', m = c :: m' ∧ ']' ∉ m' ∧ s = c :: (m' ++ ']' :: rest) := by
  constructor
  · intro h
    have hs := eq_append_of_splitMembers h
    cases s with
    | nil => simp [splitMembers] at h
    | cons c r =>
      simp only [splitMembers] at h
      split at h
      · simp at h
      · obtain ⟨rfl, rfl⟩ : c :: r.takeWhile (· != ']') = m ∧ _ = rest := by simpa using h
        refine ⟨c, _, rfl, fun hm => ?_, by simpa using hs⟩
        simpa using List.all_eq_true.1 List.all_takeWhile _ hm
  · rintro ⟨c, m', rfl, hm, rfl⟩
    have hall : ∀ a ∈ m', (a != ']') = true := by
      intro a ha
      simp only [bne_iff_ne, ne_eq]
      rintro rfl
      exact hm ha
    simp [splitMembers, List.takeWhile_append_of_pos hall, List.dropWhile_append_of_pos hall]

/-- Without a closing bracket after the first member there is no class. -/
theorem splitMembers_eq_none_iff {s : List Char} : splitMembers s = none ↔ ']' ∉ s.tail := by
  cases s with
  | nil => simp [splitMembers]
  | cons c r =>
    simp only [splitMembers, List.tail_cons]
    split
    · next h =>
      have hall := List.dropWhile_eq_nil_iff.1 h
      simpa using fun hm => by simpa using hall _ hm
    · next e rest h =>
      have hmem : ¬ ∀ a ∈ r, (a != ']') = true := fun hall => by
        rw [List.dropWhile_eq_nil_iff.2 hall] at h
        simp at h
      simpa using hmem

/-- An exclamation mark in front negates a class. -/
theorem split_bang (r : List Char) :
    split ('!' :: r) = (splitMembers r).map fun p => (⟨true, p.1⟩, p.2) := rfl

/-- Without an exclamation mark in front a class is not negated. -/
theorem split_of_ne {r : List Char} (h : r.head? ≠ some '!') :
    split r = (splitMembers r).map fun p => (⟨false, p.1⟩, p.2) := by
  rw [split]
  rintro r' rfl
  simp at h

/-- A class as it stands in a text: a mark if it is negated, its members, its closing bracket. -/
theorem split_eq_some_iff {s rest : List Char} {b : Bracket} :
    split s = some (b, rest) ↔
      splitMembers (if b.negated then s.tail else s) = some (b.members, rest) ∧
        (s.head? = some '!' ↔ b.negated = true) := by
  by_cases h : s.head? = some '!'
  · obtain ⟨r, rfl⟩ : ∃ r, s = '!' :: r := by cases s <;> simp_all
    rw [split_bang, Option.map_eq_some_iff]
    constructor
    · rintro ⟨p, hp, he⟩
      obtain ⟨rfl, rfl⟩ : _ = b ∧ _ = rest := Prod.mk.inj he
      exact ⟨by simpa using hp, by simp⟩
    · rintro ⟨hm, hn⟩
      have hn : b.negated = true := hn.1 h
      refine ⟨(b.members, rest), by simpa [hn] using hm, ?_⟩
      rw [← hn]
  · rw [split_of_ne h, Option.map_eq_some_iff]
    constructor
    · rintro ⟨p, hp, he⟩
      obtain ⟨rfl, rfl⟩ : _ = b ∧ _ = rest := Prod.mk.inj he
      exact ⟨by simpa using hp, by simp [h]⟩
    · rintro ⟨hm, hn⟩
      have hn : b.negated = false := by simpa [h] using hn
      refine ⟨(b.members, rest), by simpa [hn] using hm, ?_⟩
      rw [← hn]

/-- A class as written, without its opening bracket. -/
def inner (b : Bracket) : List Char := (if b.negated then '!' :: b.members else b.members) ++ [']']

theorem text_eq (b : Bracket) : b.text = '[' :: b.inner := rfl

/-- A class read is what stands before the text after it. -/
theorem eq_inner_append {s rest : List Char} {b : Bracket} (h : split s = some (b, rest)) :
    s = b.inner ++ rest := by
  have ht := text_append_of_split h
  rw [text_eq, List.cons_append] at ht
  exact (List.cons.inj ht).2.symm

/-- A class that was read once is read whatever follows it. -/
theorem split_inner_append {s rest : List Char} {b : Bracket} (h : split s = some (b, rest))
    (t : List Char) : split (b.inner ++ t) = some (b, t) := by
  have hs := eq_inner_append h
  rw [split_eq_some_iff, splitMembers_eq_some_iff] at h ⊢
  obtain ⟨⟨c, m', hm, hclose, -⟩, hbang⟩ := h
  refine ⟨⟨c, m', hm, hclose, ?_⟩, ?_⟩
  · cases hn : b.negated <;> simp [inner, hn, hm]
  · rw [← hbang, hs]
    cases hn : b.negated <;> simp [inner, hn, hm]

/-- What follows a class does not matter to it. -/
theorem split_append {s rest : List Char} {b : Bracket}
    (h : split s = some (b, rest)) (t : List Char) : split (s ++ t) = some (b, rest ++ t) := by
  rw [eq_inner_append h, List.append_assoc]
  exact split_inner_append h _

/-- There is no class if there is no closing bracket after what can be its first member. -/
theorem split_eq_none_iff {s : List Char} :
    split s = none ↔ ']' ∉ (if s.head? = some '!' then s.tail else s).tail := by
  by_cases h : s.head? = some '!'
  · obtain ⟨r, rfl⟩ : ∃ r, s = '!' :: r := by cases s <;> simp_all
    rw [split_bang, Option.map_eq_none_iff, splitMembers_eq_none_iff]
    simp
  · rw [split_of_ne h, Option.map_eq_none_iff, splitMembers_eq_none_iff]
    simp [h]

/-- A bracket that opens no class opens none either if other text without closing brackets follows
instead. -/
theorem split_append_eq_none {u v t : List Char} {c : Char} (hc : c ≠ '!')
    (h : split (u ++ c :: v) = none) (ht : ']' ∈ t → ']' ∈ v) : split (u ++ t) = none := by
  rw [split_eq_none_iff] at h ⊢
  -- The first character that is no mark is a member, so only brackets after it could close the
  -- class.
  cases u with
  | nil =>
    have hv : ']' ∉ v := by simpa [hc] using h
    have htail : ∀ r : List Char, ']' ∉ r → ']' ∉ r.tail := fun r hr hm =>
      hr (List.mem_of_mem_tail hm)
    rw [List.nil_append]
    split
    · exact htail _ (htail t fun hm => hv (ht hm))
    · exact htail t fun hm => hv (ht hm)
  | cons d u =>
    by_cases hd : d = '!'
    · subst hd
      cases u with
      | nil =>
        have hv : ']' ∉ v := by simpa using h
        simpa using fun hm => hv (ht (List.mem_of_mem_tail hm))
      | cons e u =>
        simp only [List.cons_append, List.head?_cons, if_true, List.tail_cons, List.mem_append,
          List.mem_cons, not_or] at h ⊢
        exact ⟨h.1, fun hm => h.2.2 (ht hm)⟩
    · simp only [List.cons_append, List.head?_cons, Option.some.injEq, hd, if_false, List.tail_cons,
        List.mem_append, List.mem_cons, not_or] at h ⊢
      exact ⟨h.1, fun hm => h.2.2 (ht hm)⟩

end ImportLint.Glob.Bracket

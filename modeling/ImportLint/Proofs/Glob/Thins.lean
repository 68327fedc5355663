import ImportLint.Glob.Star

/-!
# Thinned runs of stars

Whichever way stars are collapsed, what goes missing are stars that stand right before another one.
So the other characters are all kept, and in particular the first and the last ones.
-/

namespace ImportLint.Glob

/-- `Thins s t`: some stars of `s` that stand right before another one are missing from `t`. -/
inductive Thins : List Char → List Char → Prop
  | nil : Thins [] []
  | cons {s t} (c : Char) : Thins s t → Thins (c :: s) (c :: t)
  | drop {s t} : Thins ('*' :: s) t → Thins ('*' :: '*' :: s) t

section

variable {s s' t t' : List Char}

/-- A text thins to itself. -/
theorem thins_refl (s : List Char) : Thins s s := by
  induction s with
  | nil => exact .nil
  | cons c s ih => exact .cons c ih

/-- What thins in two parts thins. -/
theorem Thins.append (h : Thins s t) (h' : Thins s' t') : Thins (s ++ s') (t ++ t') := by
  induction h with
  | nil => exact h'
  | cons c _ ih => exact .cons c ih
  | drop _ ih => exact .drop ih

/-- Thinning keeps the first character. -/
theorem Thins.head?_eq (h : Thins s t) : t.head? = s.head? := by
  induction h with
  | nil => rfl
  | cons => rfl
  | drop _ ih => rw [ih, List.head?_cons, List.head?_cons]

/-- Thinning adds no characters. -/
theorem Thins.subset (h : Thins s t) : t ⊆ s := by
  induction h with
  | nil => exact List.Subset.refl []
  | cons c _ ih => exact List.cons_subset_cons c ih
  | drop _ ih => exact List.subset_cons_of_subset _ ih

/-- After the first character, too, thinning brings in nothing. -/
theorem Thins.tail_subset (h : Thins s t) : t.tail ⊆ s.tail := by
  induction h with
  | nil => exact List.Subset.refl []
  | cons _ h => exact h.subset
  | drop _ ih => exact List.subset_cons_of_subset _ ih

/-- Where no hyphen and another character come first, none do with stars missing. -/
theorem Thins.not_hyphen (h : Thins s t) (hs : ∀ y r, s = '-' :: y :: r → False)
    (y : Char) (r : List Char) : t = '-' :: y :: r → False := by
  rintro rfl
  cases h with
  | cons _ h =>
    cases h with
    | cons _ h => exact hs _ _ rfl
    | drop h => exact hs _ _ rfl
  | drop h => cases h.head?_eq

/-- A last character that is no star stays the last. -/
theorem Thins.exists_concat {d : Char} (hd : d ≠ '*') (h : Thins (s ++ [d]) t) :
    ∃ t', t = t' ++ [d] ∧ Thins s t' := by
  induction s generalizing t with
  | nil =>
    cases h with
    | cons _ h =>
      cases h
      exact ⟨[], rfl, .nil⟩
  | cons c s ih =>
    generalize hw : c :: s ++ [d] = w at h
    cases h with
    | nil => cases hw
    | cons _ h =>
      obtain ⟨rfl, rfl⟩ := List.cons.inj hw
      obtain ⟨t', rfl, ht'⟩ := ih h
      exact ⟨c :: t', rfl, .cons c ht'⟩
    | drop h =>
      obtain ⟨rfl, hs⟩ := List.cons.inj hw
      obtain ⟨t', rfl, ht'⟩ := ih (hs ▸ h)
      -- What comes before the last character starts with the star that is kept.
      cases s with
      | nil => exact absurd (List.cons.inj hs).1 hd
      | cons e s =>
        obtain ⟨rfl, -⟩ := List.cons.inj hs
        exact ⟨t', rfl, .drop ht'⟩

end

/-- Shortening each run of stars to one thins a text. -/
theorem thins_singleStars (s : List Char) : Thins s (singleStars s) := by
  fun_induction singleStars s with
  | case1 r ih => exact .drop ih
  | case2 c r _ ih => exact .cons c ih
  | case3 => exact .nil

/-- Two or more stars thin to two. -/
theorem thins_replicate (n : Nat) : Thins (List.replicate (n + 2) '*') ['*', '*'] := by
  induction n with
  | zero => exact thins_refl _
  | succ n ih => exact .drop ih

/-- Collapsing a segment thins it. -/
theorem thins_collapseSegment (s : List Char) : Thins s (collapseSegment s) := by
  unfold collapseSegment
  split
  · next h =>
    simp only [Bool.and_eq_true, decide_eq_true_eq, List.all_eq_true, beq_iff_eq] at h
    obtain ⟨n, hn⟩ := Nat.exists_eq_add_of_le' h.1
    rw [List.eq_replicate_of_mem h.2, hn]
    exact thins_replicate n
  · exact thins_singleStars s

/-- Thinning each piece thins the pieces joined. -/
theorem thins_joinPieces {f : List Char → List Char} (hf : ∀ p, Thins p (f p))
    (ps : List (List Char)) : Thins (joinPieces '/' ps) (joinPieces '/' (ps.map f)) := by
  induction ps with
  | nil => exact .nil
  | cons p ps ih =>
    by_cases hps : ps = []
    · rw [hps]
      exact hf p
    · rw [List.map_cons, joinPieces_cons hps, joinPieces_cons (by simpa using hps)]
      exact (hf p).append (.cons '/' ih)

end ImportLint.Glob

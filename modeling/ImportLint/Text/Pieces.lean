/-!
# Pieces between separators

A list cut at each separator, and put together again. There is always one piece more than there are
separators, and putting the pieces together gives the list back.
-/

namespace ImportLint

variable {α : Type} [DecidableEq α]

/-- The **pieces** of a list between the occurrences of a separator. -/
def pieces (sep : α) : List α → List (List α)
  | [] => [[]]
  | a :: r =>
    if a = sep then [] :: pieces sep r
    else
      match pieces sep r with
      | [] => [[a]]
      | p :: ps => (a :: p) :: ps

/-- Pieces put together with a separator between them. -/
def joinPieces (sep : α) : List (List α) → List α
  | [] => []
  | [p] => p
  | p :: ps => p ++ sep :: joinPieces sep ps

/-- There is always at least one piece. -/
@[simp] theorem pieces_ne_nil (sep : α) (s : List α) : pieces sep s ≠ [] := by
  cases s with
  | nil => simp [pieces]
  | cons a r =>
    unfold pieces
    split
    · simp
    · split <;> simp

/-- Putting the pieces together gives the list back. -/
@[simp] theorem joinPieces_pieces (sep : α) (s : List α) : joinPieces sep (pieces sep s) = s := by
  induction s with
  | nil => rfl
  | cons a r ih =>
    unfold pieces
    split
    · next h =>
      cases hp : pieces sep r with
      | nil => exact absurd hp (pieces_ne_nil sep r)
      | cons p ps => rw [hp] at ih; simp [joinPieces, ih, h]
    · split
      · next hp => exact absurd hp (pieces_ne_nil sep r)
      · next p ps hp =>
        rw [hp] at ih
        cases ps <;> simp_all [joinPieces]

/-- The empty text is one empty piece. -/
@[simp] theorem pieces_nil (sep : α) : pieces sep [] = [[]] := rfl

/-- A separator in front adds an empty piece. -/
@[simp] theorem pieces_cons_self (sep : α) (s : List α) :
    pieces sep (sep :: s) = [] :: pieces sep s := by
  simp [pieces]

/-- An element that is no separator goes to the first piece. -/
theorem pieces_cons_of_ne {sep a : α} (h : a ≠ sep) (s : List α) :
    pieces sep (a :: s) = (pieces sep s).modifyHead (a :: ·) := by
  cases hp : pieces sep s with
  | nil => exact absurd hp (pieces_ne_nil sep s)
  | cons p ps => simp [pieces, h, hp]

/-- There is a first piece. -/
theorem exists_pieces_eq_cons (sep : α) (s : List α) : ∃ p ps, pieces sep s = p :: ps :=
  List.exists_cons_of_ne_nil (pieces_ne_nil sep s)

/-- A list without separators is its only piece. -/
theorem pieces_of_notMem {sep : α} {s : List α} (h : sep ∉ s) : pieces sep s = [s] := by
  induction s with
  | nil => rfl
  | cons a r ih =>
    simp only [List.mem_cons, not_or] at h
    rw [pieces_cons_of_ne (Ne.symm h.1), ih h.2]
    rfl

/-- The pieces on both sides of a separator. -/
theorem pieces_append_cons (sep : α) (s t : List α) :
    pieces sep (s ++ sep :: t) = pieces sep s ++ pieces sep t := by
  induction s with
  | nil => simp
  | cons a r ih =>
    obtain ⟨p, ps, hp⟩ := exists_pieces_eq_cons sep r
    by_cases ha : a = sep
    · subst ha
      simp [ih]
    · rw [List.cons_append, pieces_cons_of_ne ha, pieces_cons_of_ne ha, ih, hp]
      rfl

/-- No piece holds a separator. -/
theorem notMem_of_mem_pieces {sep : α} {s p : List α} (h : p ∈ pieces sep s) : sep ∉ p := by
  induction s generalizing p with
  | nil => simp_all
  | cons a r ih =>
    obtain ⟨q, qs, hq⟩ := exists_pieces_eq_cons sep r
    by_cases ha : a = sep
    · subst ha
      rw [pieces_cons_self, List.mem_cons] at h
      rcases h with rfl | h
      · simp
      · exact ih h
    · rw [pieces_cons_of_ne ha, hq, List.modifyHead_cons, List.mem_cons] at h
      rcases h with rfl | h
      · simpa [Ne.symm ha] using ih (hq ▸ List.mem_cons_self)
      · exact ih (hq ▸ List.mem_cons_of_mem q h)

/-- One piece is joined with nothing. -/
@[simp] theorem joinPieces_singleton {β : Type} (sep : β) (p : List β) :
    joinPieces sep [p] = p := rfl

/-- A piece is joined with the others by a separator. -/
theorem joinPieces_cons {β : Type} {sep : β} {ps : List (List β)} (h : ps ≠ []) (p : List β) :
    joinPieces sep (p :: ps) = p ++ sep :: joinPieces sep ps := by
  cases ps with
  | nil => exact absurd rfl h
  | cons q qs => rfl

/-- Each piece stands in what the pieces make together. -/
theorem isInfix_joinPieces {β : Type} {sep : β} {p : List β} {ps : List (List β)} (hp : p ∈ ps) :
    p <:+: joinPieces sep ps := by
  induction ps with
  | nil => cases hp
  | cons q ps ih =>
    by_cases hps : ps = []
    · subst hps
      obtain rfl : p = q := by simpa using hp
      exact List.infix_rfl
    · rw [joinPieces_cons hps]
      rcases List.mem_cons.1 hp with rfl | hp
      · exact (List.prefix_append p _).isInfix
      · have hsuffix : joinPieces sep ps <:+ q ++ sep :: joinPieces sep ps :=
          (List.suffix_cons sep _).trans (List.suffix_append q _)
        exact (ih hp).trans hsuffix.isInfix

/-- What is in a piece is in the pieces joined. -/
theorem mem_joinPieces {β : Type} {sep a : β} {p : List β} {ps : List (List β)} (ha : a ∈ p)
    (hp : p ∈ ps) : a ∈ joinPieces sep ps :=
  (isInfix_joinPieces hp).subset ha

/-- Each piece of a text stands in the text. -/
theorem isInfix_of_mem_pieces {sep : α} {s p : List α} (hp : p ∈ pieces sep s) : p <:+: s := by
  have h := @isInfix_joinPieces α sep p (pieces sep s) hp
  rwa [joinPieces_pieces] at h

/-- The elements of a piece are elements of the list. -/
theorem mem_of_mem_pieces {sep a : α} {s p : List α} (h : p ∈ pieces sep s) (ha : a ∈ p) : a ∈ s :=
  (isInfix_of_mem_pieces h).subset ha

/-- What is in the pieces joined is in one of them, unless it is the separator. -/
theorem mem_of_mem_joinPieces {β : Type} {sep a : β} (ha : a ≠ sep) {ps : List (List β)}
    (h : a ∈ joinPieces sep ps) : ∃ p ∈ ps, a ∈ p := by
  induction ps with
  | nil => simp [joinPieces] at h
  | cons p ps ih =>
    by_cases hps : ps = []
    · subst hps
      exact ⟨p, List.mem_cons_self, h⟩
    · rw [joinPieces_cons hps, List.mem_append, List.mem_cons] at h
      rcases h with h | rfl | h
      · exact ⟨p, List.mem_cons_self, h⟩
      · exact absurd rfl ha
      · obtain ⟨q, hq, haq⟩ := ih h
        exact ⟨q, List.mem_cons_of_mem p hq, haq⟩

/-- What is no separator is in a list if it is in one of the pieces. -/
theorem mem_iff_exists_piece {sep a : α} (ha : a ≠ sep) {s : List α} :
    a ∈ s ↔ ∃ p ∈ pieces sep s, a ∈ p := by
  constructor
  · intro h
    rw [← joinPieces_pieces sep s] at h
    exact mem_of_mem_joinPieces ha h
  · rintro ⟨p, hp, h⟩
    exact mem_of_mem_pieces hp h

/-- Pieces that hold no separator are the pieces of what they make together. -/
theorem pieces_joinPieces {sep : α} {ps : List (List α)} (hne : ps ≠ []) (h : ∀ p ∈ ps, sep ∉ p) :
    pieces sep (joinPieces sep ps) = ps := by
  induction ps with
  | nil => exact absurd rfl hne
  | cons p ps ih =>
    have hp : pieces sep p = [p] := pieces_of_notMem (h p List.mem_cons_self)
    by_cases hps : ps = []
    · rw [hps, joinPieces_singleton, hp]
    · rw [joinPieces_cons hps, pieces_append_cons, hp,
        ih hps fun q hq => h q (List.mem_cons_of_mem p hq)]
      rfl

/-- Take a list off the front of another. -/
def stripPrefix? : List α → List α → Option (List α)
  | [], s => some s
  | p :: ps, a :: s => if p = a then stripPrefix? ps s else none
  | _ :: _, [] => none

/-- A prefix is stripped exactly where a text starts with it, and the rest is left. -/
theorem stripPrefix?_eq_some_iff {p s r : List α} : stripPrefix? p s = some r ↔ s = p ++ r := by
  fun_induction stripPrefix? p s with
  | case1 s => simp
  | case2 p ps s ih => simpa using ih
  | case3 p ps a s h =>
    have ha : a ≠ p := fun he => h he.symm
    simp [ha]
  | case4 p ps => simp

/-- Take a list off the end of another. -/
def stripSuffix? (e s : List α) : Option (List α) :=
  (stripPrefix? e.reverse s.reverse).map List.reverse

/-- A suffix is stripped exactly where a text ends with it, and what comes before is left. -/
theorem stripSuffix?_eq_some_iff {e s r : List α} : stripSuffix? e s = some r ↔ s = r ++ e := by
  unfold stripSuffix?
  simp only [Option.map_eq_some_iff, stripPrefix?_eq_some_iff]
  constructor
  · rintro ⟨r', h, rfl⟩
    have h' := congrArg List.reverse h
    simpa using h'
  · rintro rfl
    exact ⟨r.reverse, by simp, by simp⟩

/-- A run of elements with a property ends where the next one has it not. -/
theorem takeWhile_append_of_ends {β : Type} {p : β → Bool} {run rest : List β}
    (hrun : ∀ a ∈ run, p a = true) (hrest : ∀ a ∈ rest.head?, p a = false) :
    (run ++ rest).takeWhile p = run := by
  rw [List.takeWhile_append_of_pos hrun]
  cases rest with
  | nil => simp
  | cons a rest => simp [hrest a rfl]

/-- Dropping stops where the run ends. -/
theorem dropWhile_append_of_ends {β : Type} {p : β → Bool} {run rest : List β}
    (hrun : ∀ a ∈ run, p a = true) (hrest : ∀ a ∈ rest.head?, p a = false) :
    (run ++ rest).dropWhile p = rest := by
  rw [List.dropWhile_append_of_pos hrun]
  cases rest with
  | nil => simp
  | cons a rest => simp [hrest a rfl]

/-- A list without the elements at its end that have a property. -/
def dropEndWhile (p : α → Bool) (s : List α) : List α := (s.reverse.dropWhile p).reverse

/-- A run at the end is dropped, and nothing before it. -/
theorem dropEndWhile_append_of_ends {β : Type} {p : β → Bool} {rest run : List β}
    (hrest : ∀ a ∈ rest.getLast?, p a = false) (hrun : ∀ a ∈ run, p a = true) :
    dropEndWhile p (rest ++ run) = rest := by
  rw [dropEndWhile, List.reverse_append, dropWhile_append_of_ends (by simpa using hrun)
    (by simpa using hrest), List.reverse_reverse]

/-- What is dropped at the end is a run. -/
theorem exists_dropEndWhile_append {β : Type} (p : β → Bool) (s : List β) :
    ∃ run, s = dropEndWhile p s ++ run ∧ ∀ a ∈ run, p a = true := by
  refine ⟨(s.reverse.takeWhile p).reverse, ?_, fun a ha => ?_⟩
  · rw [dropEndWhile, ← List.reverse_append, List.takeWhile_append_dropWhile, List.reverse_reverse]
  · exact List.all_eq_true.1 List.all_takeWhile a (List.mem_reverse.1 ha)

end ImportLint

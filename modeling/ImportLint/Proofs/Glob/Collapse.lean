import ImportLint.Proofs.Glob.Bracket
import ImportLint.Proofs.Glob.Segment
import ImportLint.Proofs.Glob.Thins

/-!
# Collapsing stars, segment by segment

Stars are collapsed between any two slashes, also where one of them lies in a bracket class. Read
unit by unit, the collapsed spelling has the same segments as the spelling: each is collapsed for
itself, and so is each class. What has to be followed is whether a place starts a piece, for stars
only count for more than one if they have a piece for themselves.
-/

namespace ImportLint.Glob

/-! ## Single stars -/

/-- A star before a star is dropped. -/
@[simp] theorem singleStars_star_star (s : List Char) :
    singleStars ('*' :: '*' :: s) = singleStars ('*' :: s) := by
  simp [singleStars]

/-- Any other character is kept. -/
theorem singleStars_cons {c : Char} {s : List Char} (h : c = '*' → s.head? ≠ some '*') :
    singleStars (c :: s) = c :: singleStars s := by
  rw [singleStars]
  rintro r rfl rfl
  simp at h

/-- At least two stars and nothing else. -/
theorem collapseSegment_replicate {n : Nat} (h : 2 ≤ n) :
    collapseSegment (List.replicate n '*') = ['*', '*'] := by
  simp [collapseSegment, h]

/-! ## Where a piece has been begun -/

/-- Collapse the stars of the rest of a spelling, where its first piece has been begun. -/
def collapseRest (s : List Char) : List Char :=
  match pieces '/' s with
  | [] => []
  | p :: ps => joinPieces '/' (singleStars p :: ps.map collapseSegment)

/-- The first character of a first piece is the first of the pieces joined. -/
theorem joinPieces_cons_cons {α : Type} (sep a : α) (p : List α) (ps : List (List α)) :
    joinPieces sep ((a :: p) :: ps) = a :: joinPieces sep (p :: ps) := by
  cases ps <;> rfl

/-- There is nothing to collapse in the empty spelling. -/
@[simp] theorem collapseStars_nil : collapseStars [] = [] := rfl

/-- There is nothing to collapse in an empty rest. -/
@[simp] theorem collapseRest_nil : collapseRest [] = [] := rfl

/-- After a slash a spelling is collapsed as if it started there. -/
@[simp] theorem collapseStars_slash (s : List Char) :
    collapseStars ('/' :: s) = '/' :: collapseStars s := by
  rw [collapseStars, pieces_cons_self, List.map_cons, joinPieces_cons (by simp)]
  rfl

/-- After a slash the rest is collapsed as a spelling of its own. -/
@[simp] theorem collapseRest_slash (s : List Char) :
    collapseRest ('/' :: s) = '/' :: collapseStars s := by
  simp only [collapseRest, pieces_cons_self]
  rw [joinPieces_cons (by simp)]
  rfl

/-- The first piece of a list starts as the list does. -/
theorem head?_of_pieces {sep a : Char} (ha : a ≠ sep) {s p : List Char} {ps : List (List Char)}
    (h : pieces sep s = p :: ps) : p.head? = some a ↔ s.head? = some a := by
  cases s with
  | nil => simp_all
  | cons c r =>
    by_cases hc : c = sep
    · subst hc
      obtain ⟨rfl, -⟩ : [] = p ∧ _ := by simpa using h
      simp [Ne.symm ha]
    · obtain ⟨q, qs, hq⟩ := exists_pieces_eq_cons sep r
      rw [pieces_cons_of_ne hc, hq] at h
      obtain ⟨rfl, -⟩ : c :: q = p ∧ qs = ps := by simpa using h
      simp

/-- A character other than a slash is kept, but for a star before another. -/
theorem collapseRest_cons {c : Char} {s : List Char} (hc : c ≠ '/')
    (h : c = '*' → s.head? ≠ some '*') : collapseRest (c :: s) = c :: collapseRest s := by
  obtain ⟨p, ps, hp⟩ := exists_pieces_eq_cons '/' s
  have hp' : c = '*' → p.head? ≠ some '*' := fun hc' => by
    rw [Ne, head?_of_pieces (by decide) hp]
    exact h hc'
  simp only [collapseRest, pieces_cons_of_ne hc, hp, List.modifyHead_cons]
  rw [singleStars_cons hp', joinPieces_cons_cons]

/-- A star before another is dropped. -/
@[simp] theorem collapseRest_star_star (s : List Char) :
    collapseRest ('*' :: '*' :: s) = collapseRest ('*' :: s) := by
  obtain ⟨p, ps, hp⟩ := exists_pieces_eq_cons '/' s
  simp [collapseRest, pieces_cons_of_ne (show '*' ≠ '/' by decide), hp]

/-- A spelling of two or more stars collapses to two. -/
theorem collapseStars_replicate {n : Nat} (h : 2 ≤ n) :
    collapseStars (List.replicate n '*') = ['*', '*'] := by
  rw [collapseStars, pieces_of_notMem (by simp), List.map_singleton, collapseSegment_replicate h]
  rfl

/-- Two or more stars that are a first segment collapse to two. -/
theorem collapseStars_replicate_slash {n : Nat} (h : 2 ≤ n) (s : List Char) :
    collapseStars (List.replicate n '*' ++ '/' :: s) = '*' :: '*' :: '/' :: collapseStars s := by
  rw [collapseStars, pieces_append_cons, pieces_of_notMem (by simp), List.map_append,
    List.map_singleton, collapseSegment_replicate h, List.singleton_append,
    joinPieces_cons (by simp)]
  rfl

/-- At the start of a piece nothing is different, unless stars have the piece for themselves. -/
theorem collapseStars_cases (s : List Char) :
    (∃ n, 2 ≤ n ∧ s = List.replicate n '*') ∨
      (∃ n r, 2 ≤ n ∧ s = List.replicate n '*' ++ '/' :: r) ∨ collapseStars s = collapseRest s := by
  obtain ⟨p, ps, hp⟩ := exists_pieces_eq_cons '/' s
  have hs : s = joinPieces '/' (p :: ps) := by rw [← hp, joinPieces_pieces]
  by_cases hany : (2 ≤ p.length && p.all (· == '*')) = true
  · simp only [Bool.and_eq_true, decide_eq_true_eq, List.all_eq_true, beq_iff_eq] at hany
    have hrep : p = List.replicate p.length '*' := List.eq_replicate_of_mem hany.2
    by_cases hps : ps = []
    · subst hps
      exact .inl ⟨p.length, hany.1, by rwa [hrep] at hs⟩
    · rw [joinPieces_cons hps, hrep] at hs
      exact .inr (.inl ⟨p.length, _, hany.1, hs⟩)
  · right; right
    simp only [collapseStars, collapseRest, hp, List.map_cons]
    rw [collapseSegment, if_neg hany]

/-- Collapsing the rest only takes stars away that follow another. -/
theorem thins_collapseRest (s : List Char) : Thins s (collapseRest s) := by
  obtain ⟨p, ps, hp⟩ := exists_pieces_eq_cons '/' s
  have hs : s = joinPieces '/' (p :: ps) := by rw [← hp, joinPieces_pieces]
  unfold collapseRest
  simp only [hp]
  rw [hs]
  by_cases hps : ps = []
  · rw [hps]
    exact thins_singleStars p
  · rw [joinPieces_cons hps, joinPieces_cons (by simpa using hps)]
    exact (thins_singleStars p).append (.cons '/' (thins_joinPieces thins_collapseSegment ps))

/-! ## Around a character that is neither a star nor a slash -/

section Around

variable {d : Char}

/-- What comes of some text before the character `d`: it depends on nothing after it, and has the
same first character. -/
def CollapsesTo (collapse : List Char → List Char) (d : Char) (x x' : List Char) : Prop :=
  (∀ e ∈ x', e ∈ x) ∧ x'.head? = x.head? ∧
    ∀ y, collapse (x ++ d :: y) = x' ++ d :: collapseRest y

/-- A character that is kept may be put in front of what collapses. -/
theorem CollapsesTo.cons {collapse collapse' : List Char → List Char} {x x' : List Char}
    (h : CollapsesTo collapse d x x') {c : Char}
    (hc : ∀ y, collapse' (c :: (x ++ d :: y)) = c :: collapse (x ++ d :: y)) :
    CollapsesTo collapse' d (c :: x) (c :: x') := by
  obtain ⟨hmem, -, hy⟩ := h
  refine ⟨fun e he => ?_, rfl, fun y => by rw [List.cons_append, hc, hy, List.cons_append]⟩
  rcases List.mem_cons.1 he with rfl | he
  · exact List.mem_cons_self
  · exact List.mem_cons_of_mem c (hmem e he)

/-- Where a piece has been begun, one character more. -/
theorem exists_collapsesTo_cons (hstar : d ≠ '*') {c : Char} {x : List Char}
    (hrest : ∃ x', CollapsesTo collapseRest d x x')
    (hstars : ∃ x', CollapsesTo collapseStars d x x') :
    ∃ x', CollapsesTo collapseRest d (c :: x) x' := by
  obtain ⟨x', hx'⟩ := hrest
  obtain ⟨x'', hx''⟩ := hstars
  by_cases hc : c = '/'
  · subst hc
    exact ⟨'/' :: x'', hx''.cons fun y => collapseRest_slash _⟩
  -- A star before another is dropped, and what it was before has the same first character.
  by_cases hss : c = '*' ∧ x.head? = some '*'
  · obtain ⟨rfl, hx⟩ := hss
    obtain ⟨x, rfl⟩ : ∃ r, x = '*' :: r := by cases x <;> simp_all
    refine ⟨x', fun e he => List.mem_cons_of_mem _ (hx'.1 e he), hx'.2.1, fun y => ?_⟩
    rw [← hx'.2.2, List.cons_append, List.cons_append, collapseRest_star_star]
  · refine ⟨c :: x', hx'.cons fun y => collapseRest_cons hc fun hc' => ?_⟩
    cases x with
    | nil => simpa using hstar
    | cons e x => simpa [hc'] using hss

/-- After stars with a piece for themselves a new one begins. -/
theorem CollapsesTo.replicate_slash {n : Nat} (hn : 2 ≤ n) {r r' : List Char}
    (h : CollapsesTo collapseStars d r r') :
    CollapsesTo collapseStars d (List.replicate n '*' ++ '/' :: r) ('*' :: '*' :: '/' :: r') := by
  refine ⟨fun e he => ?_, ?_, fun y => ?_⟩
  · simp only [List.mem_cons, List.mem_append, List.mem_replicate] at he ⊢
    rcases he with rfl | rfl | rfl | he
    · exact .inl ⟨by omega, rfl⟩
    · exact .inl ⟨by omega, rfl⟩
    · exact .inr (.inl rfl)
    · exact .inr (.inr (h.1 e he))
  · obtain ⟨m, rfl⟩ : ∃ m, n = m + 1 := ⟨n - 1, by omega⟩
    rfl
  · rw [List.append_assoc, List.cons_append, collapseStars_replicate_slash hn, h.2.2]
    rfl

/-- Text that does not start with stars for themselves may as well have been begun. -/
theorem CollapsesTo.stars_of_rest (hstar : d ≠ '*') (hslash : d ≠ '/') {x x' : List Char}
    (h : CollapsesTo collapseRest d x x')
    (hx : ¬ ∃ n r, 2 ≤ n ∧ x = List.replicate n '*' ++ '/' :: r) :
    CollapsesTo collapseStars d x x' := by
  refine ⟨h.1, h.2.1, fun y => ?_⟩
  rw [← h.2.2]
  rcases collapseStars_cases (x ++ d :: y) with ⟨k, -, hk⟩ | ⟨k, r, hk, hr⟩ | hxy
  · have hd : d ∈ List.replicate k '*' := hk ▸ List.mem_append_right x List.mem_cons_self
    exact absurd (List.eq_of_mem_replicate hd) hstar
  · -- The slash after the stars comes before `d`.
    rcases List.append_eq_append_iff.1 hr with ⟨z, hz, hz'⟩ | ⟨z, hz, hz'⟩
    · cases z with
      | nil => simp [hslash] at hz'
      | cons e z =>
        obtain ⟨rfl, -⟩ : d = e ∧ _ := by simpa using hz'
        have hd : d ∈ List.replicate k '*' := hz ▸ List.mem_append_right x List.mem_cons_self
        exact absurd (List.eq_of_mem_replicate hd) hstar
    · cases z with
      | nil => simp [Ne.symm hslash] at hz'
      | cons e z =>
        obtain ⟨rfl, -⟩ : '/' = e ∧ _ := by simpa using hz'
        exact absurd ⟨k, z, hk, hz⟩ hx
  · exact hxy

/-- Before such a character, what is collapsed depends on nothing after it. -/
theorem exists_collapsesTo (hstar : d ≠ '*') (hslash : d ≠ '/') (x : List Char) :
    (∃ x', CollapsesTo collapseRest d x x') ∧ ∃ x', CollapsesTo collapseStars d x x' := by
  -- By induction on the length, since stars with a piece for themselves are dealt with at once.
  induction hn : x.length using Nat.strongRecOn generalizing x with
  | _ n ih =>
    have ih : ∀ r : List Char, r.length < x.length →
        (∃ r', CollapsesTo collapseRest d r r') ∧ ∃ r', CollapsesTo collapseStars d r r' :=
      fun r hr => ih r.length (hn ▸ hr) r rfl
    have hrest : ∃ x', CollapsesTo collapseRest d x x' := by
      cases x with
      | nil => exact ⟨[], by simp, rfl, fun y => collapseRest_cons hslash fun h => absurd h hstar⟩
      | cons c x =>
        obtain ⟨hrest, hstars⟩ := ih x (by simp)
        exact exists_collapsesTo_cons hstar hrest hstars
    refine ⟨hrest, ?_⟩
    by_cases hany : ∃ n r, 2 ≤ n ∧ x = List.replicate n '*' ++ '/' :: r
    · obtain ⟨k, r, hk, rfl⟩ := hany
      have hlen : r.length < (List.replicate k '*' ++ '/' :: r).length := by
        rw [List.length_append, List.length_cons]
        omega
      obtain ⟨-, r', hr'⟩ := ih r hlen
      exact ⟨_, hr'.replicate_slash hk⟩
    · obtain ⟨x', hx'⟩ := hrest
      exact ⟨x', hx'.stars_of_rest hstar hslash hany⟩

end Around

/-! ## Bracket classes -/

/-- A class with the stars among its members collapsed. -/
def Bracket.collapse (b : Bracket) : Bracket :=
  ⟨b.negated, (collapseRest (b.members ++ [']'])).dropLast⟩

/-- The members of a class are collapsed for themselves. -/
theorem collapse_members {b : Bracket} {m : List Char}
    (h : CollapsesTo collapseRest ']' b.members m) : b.collapse.members = m := by
  rw [Bracket.collapse, h.2.2 [], collapseRest_nil, List.dropLast_concat]

/-- Members stay members. -/
theorem splitMembers_collapseRest {s rest : List Char} {b : Bracket}
    (h : Bracket.splitMembers s = some (b.members, rest)) :
    Bracket.splitMembers (collapseRest s) = some (b.collapse.members, collapseRest rest) := by
  obtain ⟨c, m, hm, hclose, rfl⟩ := Bracket.splitMembers_eq_some_iff.1 h
  obtain ⟨⟨m', hm'⟩, -⟩ := exists_collapsesTo (by decide : ']' ≠ '*') (by decide) m
  by_cases hc : c = ']'
  · -- The first member is a closing bracket, and only the members after it can hold stars.
    subst hc
    have hto := hm'.cons fun y => collapseRest_cons (by decide : ']' ≠ '/') (by simp)
    rw [collapse_members (hm ▸ hto), ← List.cons_append, hto.2.2]
    exact Bracket.splitMembers_eq_some_iff.2 ⟨']', m', rfl, fun hmem => hclose (hm'.1 _ hmem), rfl⟩
  · obtain ⟨⟨x, hx⟩, -⟩ := exists_collapsesTo (by decide : ']' ≠ '*') (by decide) (c :: m)
    rw [collapse_members (hm ▸ hx), ← List.cons_append, hx.2.2]
    obtain ⟨x, rfl⟩ : ∃ x', x = c :: x' := by
      have hhead := hx.2.1
      cases x <;> simp_all
    refine Bracket.splitMembers_eq_some_iff.2 ⟨c, x, rfl, fun hmem => ?_, rfl⟩
    rcases List.mem_cons.1 (hx.1 _ (List.mem_cons_of_mem c hmem)) with h | h
    · exact hc h.symm
    · exact hclose h

/-- Collapsing the rest keeps its first character. -/
theorem head?_collapseRest (s : List Char) : (collapseRest s).head? = s.head? :=
  (thins_collapseRest s).head?_eq

/-- A class stays a class, and ends at the same place. -/
theorem split_collapseRest {s rest : List Char} {b : Bracket}
    (h : Bracket.split s = some (b, rest)) :
    Bracket.split (collapseRest s) = some (b.collapse, collapseRest rest) := by
  rw [Bracket.split_eq_some_iff] at h ⊢
  rw [head?_collapseRest]
  refine ⟨?_, h.2⟩
  have hneg : b.collapse.negated = b.negated := rfl
  rw [hneg]
  by_cases hn : b.negated = true
  · have hs := h.2.2 hn
    obtain ⟨r, rfl⟩ : ∃ r, s = '!' :: r := by cases s <;> simp_all
    rw [if_pos hn] at h ⊢
    rw [collapseRest_cons (by decide) (by simp)]
    exact splitMembers_collapseRest h.1
  · rw [if_neg hn] at h ⊢
    exact splitMembers_collapseRest h.1

/-- Where no class is closed, none is after collapsing. -/
theorem split_collapseRest_none {s : List Char} (h : Bracket.split s = none) :
    Bracket.split (collapseRest s) = none := by
  rw [Bracket.split_eq_none_iff] at h ⊢
  rw [head?_collapseRest]
  by_cases hbang : s.head? = some '!'
  · obtain ⟨r, rfl⟩ : ∃ r, s = '!' :: r := by cases s <;> simp_all
    rw [if_pos hbang] at h ⊢
    rw [collapseRest_cons (by decide) (by simp), List.tail_cons]
    exact fun hm => h ((thins_collapseRest _).tail_subset hm)
  · rw [if_neg hbang] at h ⊢
    exact fun hm => h ((thins_collapseRest _).tail_subset hm)

/-! ## Segments -/

/-- A unit with the stars of its class collapsed. -/
def Token.collapse : Token → Token
  | .bracket b => .bracket b.collapse
  | t => t

/-- Units with every run of stars shortened to one. -/
def squeeze : List Token → List Token
  | .anySequence :: .anySequence :: g => squeeze (.anySequence :: g)
  | t :: g => t.collapse :: squeeze g
  | [] => []

/-- A segment with its stars collapsed. -/
def collapseUnits (g : List Token) : List Token :=
  if isAnySegments g then [.anySequence, .anySequence] else squeeze g

/-- Of two stars in a row one is dropped. -/
@[simp] theorem squeeze_star_star (g : List Token) :
    squeeze (.anySequence :: .anySequence :: g) = squeeze (.anySequence :: g) := by
  simp [squeeze]

/-- A unit that is not the first of two stars is kept. -/
theorem squeeze_cons {t : Token} {g : List Token}
    (h : t = .anySequence → g.head? ≠ some .anySequence) :
    squeeze (t :: g) = t.collapse :: squeeze g := by
  rw [squeeze]
  rintro r rfl rfl
  simp at h

/-- Squeezing keeps the first unit. -/
theorem head?_squeeze (g : List Token) : (squeeze g).head? = g.head?.map Token.collapse := by
  fun_induction squeeze g with
  | case1 g ih => simpa using ih
  | case2 t g hg ih => rfl
  | case3 => rfl

/-- Collapsing makes no star of what is none. -/
theorem collapse_eq_anySequence_iff {t : Token} : t.collapse = .anySequence ↔ t = .anySequence := by
  cases t <;> simp [Token.collapse]

/-- Only one star is left of several, so there are no two in a row. -/
theorem isAnySegments_squeeze (g : List Token) : isAnySegments (squeeze g) = false := by
  fun_induction squeeze g with
  | case1 g ih => exact ih
  | case2 t g hg ih =>
    by_cases ht : t = .anySequence
    · subst ht
      refine isAnySegments_star_cons ?_
      rw [head?_squeeze]
      intro hhead
      obtain ⟨u, hu, hstar⟩ := Option.map_eq_some_iff.1 hhead
      rw [collapse_eq_anySequence_iff] at hstar
      cases g with
      | nil => simp at hu
      | cons v g => exact hg g rfl (by simpa [hstar] using hu)
    · exact isAnySegments_cons_of_ne (mt collapse_eq_anySequence_iff.1 ht) _
  | case3 => rfl

/-- Collapsing neither makes nor breaks a recursive segment. -/
theorem isAnySegments_collapseUnits (g : List Token) :
    isAnySegments (collapseUnits g) = isAnySegments g := by
  unfold collapseUnits
  split
  · next h => exact h.symm
  · next h => rw [isAnySegments_squeeze, Bool.eq_false_iff.2 h]

/-- Stars at the front of a spelling are units at the front of its first segment. -/
theorem segments_replicate_star (n : Nat) (s : List Char) :
    segments (List.replicate n '*' ++ s) =
      (segments s).modifyHead (List.replicate n .anySequence ++ ·) := by
  obtain ⟨g, gs, hg⟩ := exists_segments_eq_cons s
  rw [hg, List.modifyHead_cons]
  induction n with
  | zero => simpa using hg
  | succ n ih =>
    rw [List.replicate_succ, List.cons_append, segments_of_units (units_star _) (by simp), ih]
    rfl

/-- A spelling whose first segment is not made of stars only does not start with a piece that is. -/
theorem collapseStars_eq_collapseRest {s : List Char} {g : List Token} {gs : List (List Token)}
    (h : segments s = g :: gs) (hg : isAnySegments g = false) :
    collapseStars s = collapseRest s := by
  rcases collapseStars_cases s with ⟨n, hn, rfl⟩ | ⟨n, r, hn, rfl⟩ | hs
  · rw [← List.append_nil (List.replicate n '*'), segments_replicate_star] at h
    obtain ⟨rfl, -⟩ : List.replicate n .anySequence = g ∧ _ := by simpa using h
    simp [isAnySegments, hn] at hg
  · rw [segments_replicate_star, segments_slash] at h
    obtain ⟨rfl, -⟩ : List.replicate n .anySequence = g ∧ _ := by simpa using h
    simp [isAnySegments, hn] at hg
  · exact hs

/-- A first segment of stars only is a piece of stars only. -/
theorem eq_replicate_of_segments {s : List Char} {g : List Token} {gs : List (List Token)}
    (h : segments s = g :: gs) (hg : ∀ t ∈ g, t = .anySequence) :
    s = List.replicate g.length '*' ∧ gs = [] ∨
      ∃ r, s = List.replicate g.length '*' ++ '/' :: r ∧ gs = segments r := by
  induction g generalizing s with
  | nil => simpa using eq_nil_or_slash_of_segments h
  | cons t g ih =>
    obtain rfl := hg t List.mem_cons_self
    obtain ⟨r, rfl⟩ := eq_star_of_segments h
    obtain ⟨g', gs', hg'⟩ := exists_segments_eq_cons r
    rw [segments_of_units (units_star r) (by simp), hg'] at h
    obtain ⟨rfl, rfl⟩ : g' = g ∧ gs' = gs := by simpa using h
    rcases ih hg' fun u hu => hg u (List.mem_cons_of_mem _ hu) with ⟨hs, hgs⟩ | ⟨r', hs, hgs⟩
    · left
      rw [List.length_cons, List.replicate_succ, ← hs]
      exact ⟨rfl, hgs⟩
    · right
      refine ⟨r', ?_, hgs⟩
      rw [List.length_cons, List.replicate_succ, List.cons_append, ← hs]

/-- The segments of a spelling whose first piece has been begun, collapsed. -/
def RestCollapsed (s : List Char) : Prop :=
  ∀ g gs, segments s = g :: gs → segments (collapseRest s) = squeeze g :: gs.map collapseUnits

/-- One unit that is kept. -/
theorem RestCollapsed.unit {s r : List Char} (h : RestCollapsed r) {u : Token}
    (hs : units s = u :: units r)
    (hs' : units (collapseRest s) = u.collapse :: units (collapseRest r)) (hslash : u ≠ .char '/')
    (hstar : u = .anySequence → r.head? ≠ some '*') : RestCollapsed s := by
  intro g gs hg
  obtain ⟨g', gs', hg'⟩ := exists_segments_eq_cons r
  rw [segments_of_units hs hslash, hg'] at hg
  obtain ⟨rfl, rfl⟩ : u :: g' = g ∧ gs' = gs := by simpa using hg
  have hslash' : u.collapse ≠ .char '/' := by
    cases u <;> simp_all [Token.collapse]
  rw [segments_of_units hs' hslash', h g' gs' hg', squeeze_cons]
  · rfl
  · intro hu hhead
    obtain ⟨g'', rfl⟩ : ∃ g'', g' = .anySequence :: g'' := by cases g' <;> simp_all
    obtain ⟨r', rfl⟩ := eq_star_of_segments hg'
    exact hstar hu rfl

/-- An empty rest is collapsed. -/
theorem restCollapsed_nil : RestCollapsed [] := by
  intro g gs hg
  obtain ⟨rfl, rfl⟩ : [] = g ∧ [] = gs := by simpa using hg
  simp [squeeze]

/-- After a slash a piece has not been begun. -/
theorem restCollapsed_slash {r : List Char}
    (h : segments (collapseStars r) = (segments r).map collapseUnits) :
    RestCollapsed ('/' :: r) := by
  intro g gs hg
  obtain ⟨rfl, rfl⟩ : [] = g ∧ segments r = gs := by simpa using hg
  simp [h, squeeze]

/-- A star before another is dropped, and so is its unit. -/
theorem RestCollapsed.star_star {r : List Char} (h : RestCollapsed ('*' :: r)) :
    RestCollapsed ('*' :: '*' :: r) := by
  intro g gs hg
  obtain ⟨g', gs', hg'⟩ := exists_segments_eq_cons r
  have hseg : segments ('*' :: r) = (.anySequence :: g') :: gs' := by
    rw [segments_of_units (units_star _) (by simp), hg', List.modifyHead_cons]
  rw [segments_of_units (units_star _) (by simp), hseg] at hg
  obtain ⟨rfl, rfl⟩ : .anySequence :: .anySequence :: g' = g ∧ gs' = gs := by simpa using hg
  rw [collapseRest_star_star, h _ _ hseg, squeeze_star_star]

/-- A bracket: with it goes its class, if it opens one. -/
theorem restCollapsed_bracket {r : List Char} (h : RestCollapsed r)
    (hclass : ∀ b rest, Bracket.split r = some (b, rest) → RestCollapsed rest) :
    RestCollapsed ('[' :: r) := by
  have hkeep : collapseRest ('[' :: r) = '[' :: collapseRest r :=
    collapseRest_cons (by decide) (by simp)
  cases hs : Bracket.split r with
  | some p =>
    refine (hclass p.1 p.2 hs).unit (units_bracket hs) ?_ (by simp) (by simp)
    rw [hkeep, units_bracket (split_collapseRest hs)]
    rfl
  | none =>
    refine h.unit (units_openBracket hs) ?_ (by simp) (by simp)
    rw [hkeep, units_openBracket (split_collapseRest_none hs)]
    rfl

/-- Any other character is kept. -/
theorem RestCollapsed.cons {r : List Char} (h : RestCollapsed r) {c : Char} (hslash : c ≠ '/')
    (hopen : c ≠ '[') (hstar : c = '*' → r.head? ≠ some '*') : RestCollapsed (c :: r) := by
  have hkeep := collapseRest_cons hslash hstar
  by_cases hany : c = '?'
  · subst hany
    refine h.unit (units_anyChar r) ?_ (by simp) (by simp)
    rw [hkeep, units_anyChar]
    rfl
  by_cases hc : c = '*'
  · subst hc
    refine h.unit (units_star r) ?_ (by simp) fun _ => hstar rfl
    rw [hkeep, units_star]
    rfl
  · refine h.unit (units_char hany hc hopen r) ?_ (by simpa using hslash) (by simp)
    rw [hkeep, units_char hany hc hopen]
    rfl

/-- A first segment of stars only is collapsed with its piece, any other as if its piece had been
begun. -/
theorem RestCollapsed.segments_collapseStars {s : List Char} (h : RestCollapsed s)
    (hlater : ∀ r : List Char, r.length < s.length →
      segments (collapseStars r) = (segments r).map collapseUnits) :
    segments (collapseStars s) = (segments s).map collapseUnits := by
  obtain ⟨g, gs, hg⟩ := exists_segments_eq_cons s
  by_cases hany : isAnySegments g = true
  · have hall : 2 ≤ g.length ∧ ∀ t ∈ g, t = .anySequence := by simpa [isAnySegments] using hany
    rw [hg, List.map_cons, collapseUnits, if_pos hany]
    -- The stars are all of the spelling, or end with a slash.
    rcases eq_replicate_of_segments hg hall.2 with ⟨hs, rfl⟩ | ⟨r, hs, rfl⟩
    · rw [hs, collapseStars_replicate hall.1]
      simp [segments, pieces]
    · have hlen : r.length < s.length := by
        rw [hs, List.length_append, List.length_cons]
        omega
      rw [← hlater r hlen, hs, collapseStars_replicate_slash hall.1]
      simp [segments_of_units (units_star _)]
  · rw [Bool.not_eq_true] at hany
    rw [collapseStars_eq_collapseRest hg hany, h g gs hg, hg, List.map_cons, collapseUnits,
      if_neg (by simp [hany])]

/-- Collapsing, seen segment by segment. -/
theorem segments_collapse (s : List Char) :
    segments (collapseStars s) = (segments s).map collapseUnits ∧ RestCollapsed s := by
  -- By induction on the length, since a class or a run of stars is passed at once.
  induction hn : s.length using Nat.strongRecOn generalizing s with
  | ind n ih =>
    have ih : ∀ r : List Char, r.length < s.length →
        segments (collapseStars r) = (segments r).map collapseUnits ∧ RestCollapsed r :=
      fun r hr => ih r.length (hn ▸ hr) r rfl
    suffices hrest : RestCollapsed s from
      ⟨hrest.segments_collapseStars fun r hr => (ih r hr).1, hrest⟩
    cases s with
    | nil => exact restCollapsed_nil
    | cons c r =>
      obtain ⟨hstars, hrest⟩ := ih r (by simp)
      by_cases hslash : c = '/'
      · subst hslash
        exact restCollapsed_slash hstars
      by_cases hopen : c = '['
      · subst hopen
        refine restCollapsed_bracket hrest fun b rest hs => (ih rest ?_).2
        have hlen := Bracket.length_lt_of_split hs
        rw [List.length_cons]
        omega
      by_cases hss : c = '*' ∧ r.head? = some '*'
      · obtain ⟨rfl, hr⟩ := hss
        obtain ⟨r, rfl⟩ : ∃ r', r = '*' :: r' := by cases r <;> simp_all
        exact hrest.star_star
      · exact hrest.cons hslash hopen fun hc hr => hss ⟨hc, hr⟩

/-- **The segments of a collapsed spelling** are those of the spelling, each collapsed. -/
theorem segments_collapseStars (s : List Char) :
    segments (collapseStars s) = (segments s).map collapseUnits :=
  (segments_collapse s).1

end ImportLint.Glob

import ImportLint.Proofs.Glob.Collapse
import Mathlib.Data.List.Forall2
import Mathlib.Data.List.Induction

/-!
# The normal form of stars

Collapsing leaves the segments of a pattern where they are, and in each of them shortens every run
of stars: to two where the run is a segment by itself, and to one elsewhere. So a spelling that was
collapsed holds two stars in a row only as a segment, and collapsing it again does nothing.
-/

namespace ImportLint.Glob

/-- `Shortens s t`: each maximal run of stars of `s` is one star in `t`, and everything else is the
same. -/
inductive Shortens : List Char → List Char → Prop
  | nil : Shortens [] []
  | cons {s t} {c : Char} : c ≠ '*' → Shortens s t → Shortens (c :: s) (c :: t)
  | stars {s t} (n : Nat) : s.head? ≠ some '*' → Shortens s t →
      Shortens (List.replicate (n + 1) '*' ++ s) ('*' :: t)

/-- What collapsing makes of a segment: two stars of more than one and nothing else, and of any
other segment the same with its runs of stars shortened. -/
inductive CollapsesSegment : List Char → List Char → Prop
  | globstar (n : Nat) : CollapsesSegment (List.replicate (n + 2) '*') ['*', '*']
  | shortened {s t} : (∀ n, s ≠ List.replicate (n + 2) '*') → Shortens s t → CollapsesSegment s t

/-! ## Segments -/

section

variable {s t : List Char}

/-- Of two stars in a row one may be dropped. -/
theorem Shortens.star (h : Shortens ('*' :: s) t) : Shortens ('*' :: '*' :: s) t := by
  generalize hw : '*' :: s = w at h
  cases h with
  | nil => cases hw
  | cons hc _ => exact absurd (List.cons.inj hw).1.symm hc
  | stars n hs h => exact .stars (n + 1) hs h

/-- Shortening each run of stars to one shortens a text. -/
theorem shortens_singleStars (s : List Char) : Shortens s (singleStars s) := by
  fun_induction singleStars s with
  | case1 r ih => exact ih.star
  | case2 c r hr ih =>
    by_cases hc : c = '*'
    · subst hc
      refine .stars 0 (fun hhead => ?_) ih
      cases r with
      | nil => cases hhead
      | cons d r => exact hr r rfl (by simpa using hhead)
    · exact .cons hc ih
  | case3 => exact .nil

/-- Shortening keeps the first character. -/
theorem Shortens.head?_eq (h : Shortens s t) : t.head? = s.head? := by
  cases h <;> rfl

/-- After shortening no two stars are left in a row. -/
theorem Shortens.ne_double (h : Shortens s t) (a b : List Char) : t ≠ a ++ '*' :: '*' :: b := by
  induction h generalizing a with
  | nil => simp
  | cons hc _ ih =>
    cases a with
    | nil => exact fun h => hc (List.cons.inj h).1
    | cons d a => exact fun h => ih a (List.cons.inj h).2
  | stars n hs h ih =>
    cases a with
    | nil =>
      intro he
      rw [← h.head?_eq, (List.cons.inj he).2] at hs
      exact hs rfl
    | cons d a => exact fun h => ih a (List.cons.inj h).2

/-- A text without two stars in a row has none to shorten. -/
theorem singleStars_of_ne_double (h : ∀ a b, t ≠ a ++ '*' :: '*' :: b) : singleStars t = t := by
  fun_induction singleStars t with
  | case1 r => exact absurd rfl (h [] r)
  | case2 c r _ ih =>
    rw [ih]
    rintro a b rfl
    exact h (c :: a) b rfl
  | case3 => rfl

/-- At least two stars and nothing else. -/
theorem isStars_iff : (2 ≤ s.length && s.all (· == '*')) = true ↔
    ∃ n, s = List.replicate (n + 2) '*' := by
  simp only [Bool.and_eq_true, decide_eq_true_eq, List.all_eq_true, beq_iff_eq]
  constructor
  · rintro ⟨hlen, hall⟩
    obtain ⟨n, hn⟩ := Nat.exists_eq_add_of_le' hlen
    exact ⟨n, hn ▸ List.eq_replicate_of_mem hall⟩
  · rintro ⟨n, rfl⟩
    exact ⟨by simp, fun c hc => List.eq_of_mem_replicate hc⟩

/-- A segment collapses to what is computed for it. -/
theorem collapsesSegment_collapseSegment (s : List Char) :
    CollapsesSegment s (collapseSegment s) := by
  by_cases h : ∃ n, s = List.replicate (n + 2) '*'
  · obtain ⟨n, rfl⟩ := h
    rw [collapseSegment_replicate (Nat.le_add_left 2 n)]
    exact .globstar n
  · rw [collapseSegment, if_neg (mt isStars_iff.1 h)]
    exact .shortened (fun n hn => h ⟨n, hn⟩) (shortens_singleStars s)

/-- A segment that was collapsed is left as it is. -/
theorem CollapsesSegment.collapseSegment_eq (h : CollapsesSegment s t) : collapseSegment t = t := by
  cases h with
  | globstar n => rfl
  | shortened _ h =>
    have hstars : ¬ ∃ n, t = List.replicate (n + 2) '*' := by
      rintro ⟨n, hn⟩
      exact h.ne_double [] (List.replicate n '*') hn
    rw [collapseSegment, if_neg (mt isStars_iff.1 hstars), singleStars_of_ne_double h.ne_double]

/-- A segment that was collapsed holds two stars in a row only if there is nothing else in it. -/
theorem CollapsesSegment.eq_nil_of_double (h : CollapsesSegment s t) {a b : List Char}
    (ht : t = a ++ '*' :: '*' :: b) : a = [] ∧ b = [] := by
  cases h with
  | globstar n =>
    have hlen := congrArg List.length ht
    simp only [List.length_append, List.length_cons, List.length_nil] at hlen
    exact ⟨List.length_eq_zero_iff.1 (by omega), List.length_eq_zero_iff.1 (by omega)⟩
  | shortened _ h => exact absurd ht (h.ne_double a b)

end

/-! ## Patterns -/

/-- Collapsing keeps the segments and their order, and collapses each. -/
theorem pieces_collapseStars (p : List Char) :
    pieces '/' (collapseStars p) = (pieces '/' p).map collapseSegment := by
  refine pieces_joinPieces (by simp) fun q hq => ?_
  obtain ⟨r, hr, rfl⟩ := List.mem_map.1 hq
  exact fun h => notMem_of_mem_pieces hr ((thins_collapseSegment r).subset h)

/-- Collapsing a spelling twice is collapsing it once. -/
theorem collapseStars_collapseStars (p : List Char) :
    collapseStars (collapseStars p) = collapseStars p := by
  rw [collapseStars, pieces_collapseStars, List.map_map, collapseStars]
  congr 1
  refine List.map_congr_left fun s _ => ?_
  exact (collapsesSegment_collapseSegment s).collapseSegment_eq

/-- Thinning keeps the characters other than stars. -/
theorem Thins.filter_eq {s t : List Char} (h : Thins s t) :
    t.filter (· ≠ '*') = s.filter (· ≠ '*') := by
  induction h with
  | nil => rfl
  | cons c _ ih => rw [List.filter_cons, List.filter_cons, ih]
  | drop _ ih =>
    rw [ih]
    simp

/-- Collapsing a spelling thins it. -/
theorem thins_collapseStars (p : List Char) : Thins p (collapseStars p) := by
  have h := thins_joinPieces thins_collapseSegment (pieces '/' p)
  rwa [joinPieces_pieces] at h

/-! ## Where two stars stand in a row -/

section

variable {m : List Char}

/-- The first piece of a text that starts with something without slashes goes on to a slash or to
the end. -/
theorem exists_pieces_append (hm : '/' ∉ m) (b : List Char) :
    ∃ b' ps, pieces '/' (m ++ b) = (m ++ b') :: ps ∧ (b' = [] → b = [] ∨ b.head? = some '/') := by
  obtain ⟨b', ps, hb⟩ := exists_pieces_eq_cons '/' b
  refine ⟨b', ps, ?_, ?_⟩
  · induction m with
    | nil => exact hb
    | cons c m ih =>
      obtain ⟨hc, hm⟩ := not_or.1 (mt List.mem_cons.2 hm)
      rw [List.cons_append, pieces_cons_of_ne (Ne.symm hc), ih hm]
      rfl
  · rintro rfl
    cases b with
    | nil => exact .inl rfl
    | cons c b =>
      right
      by_contra hc
      have hhead := (head?_of_pieces (a := c) (by simpa using hc) hb).2 rfl
      cases hhead

/-- What stands in a text without slashes stands in one of its pieces, with what is left of it and
right of it up to the next slashes. -/
theorem exists_mem_pieces (hm : '/' ∉ m) (a b : List Char) :
    ∃ a' b', a' ++ m ++ b' ∈ pieces '/' (a ++ m ++ b) ∧ (a' = [] → a = [] ∨ a.getLast? = some '/') ∧
      (b' = [] → b = [] ∨ b.head? = some '/') := by
  -- By induction on what stands left of it, from its end: up to the last slash it goes to the same
  -- piece.
  induction a using List.reverseRecOn generalizing m with
  | nil =>
    obtain ⟨b', ps, hb, hb'⟩ := exists_pieces_append hm b
    exact ⟨[], b', by simp [hb], fun _ => .inl rfl, hb'⟩
  | append_singleton a c ih =>
    by_cases hc : c = '/'
    · subst hc
      obtain ⟨b', ps, hb, hb'⟩ := exists_pieces_append hm b
      refine ⟨[], b', ?_, fun _ => .inr (by simp), hb'⟩
      rw [List.append_assoc, List.append_assoc, List.singleton_append, pieces_append_cons, hb]
      simp
    · obtain ⟨a', b', hmem, -, hb'⟩ := ih (m := c :: m) (by simp [Ne.symm hc, hm])
      exact ⟨a' ++ [c], b', by simpa using hmem, by simp, hb'⟩

end

/-- Two stars in a row are a segment of a pattern that was collapsed. -/
theorem isSegment_of_double {p a b : List Char} (h : collapseStars p = a ++ '*' :: '*' :: b) :
    (a = [] ∨ a.getLast? = some '/') ∧ (b = [] ∨ b.head? = some '/') := by
  obtain ⟨a', b', hmem, ha, hb⟩ := exists_mem_pieces (m := ['*', '*']) (by decide) a b
  have hp : a ++ ['*', '*'] ++ b = collapseStars p := by simp [h]
  rw [hp, pieces_collapseStars] at hmem
  obtain ⟨s, -, hs⟩ := List.mem_map.1 hmem
  obtain ⟨ha', hb'⟩ :=
    (collapsesSegment_collapseSegment s).eq_nil_of_double (a := a') (b := b') (by simp [hs])
  exact ⟨ha ha', hb hb'⟩

/-- Stars in a row of a pattern that was collapsed are one star, or two that are a segment. -/
theorem stars_of_collapseStars {p a b : List Char} {n : Nat}
    (h : collapseStars p = a ++ List.replicate (n + 1) '*' ++ b) :
    n = 0 ∨ n = 1 ∧ (a = [] ∨ a.getLast? = some '/') ∧ (b = [] ∨ b.head? = some '/') := by
  match n with
  | 0 => exact .inl rfl
  | n + 1 =>
    have hdouble : collapseStars p = a ++ '*' :: '*' :: (List.replicate n '*' ++ b) := by
      simpa [List.replicate_succ] using h
    obtain ⟨ha, hrest⟩ := isSegment_of_double hdouble
    -- After the two stars there is no third one.
    cases n with
    | zero => exact .inr ⟨rfl, ha, hrest⟩
    | succ n => simp [List.replicate_succ] at hrest

/-- **The normal form of stars.** Collapsing keeps the segments of a pattern in number and order; a
segment of at least two stars and nothing else becomes two stars, and any other is shortened to
single ones. So stars in a row of the result are one star, or two that are a segment, everything but
stars is there in order, and collapsing again changes nothing. -/
theorem collapseStars_normal_form (p : List Char) :
    List.Forall₂ CollapsesSegment (pieces '/' p) (pieces '/' (collapseStars p)) ∧
    (∀ a n b, collapseStars p = a ++ List.replicate (n + 1) '*' ++ b →
      n = 0 ∨ n = 1 ∧ (a = [] ∨ a.getLast? = some '/') ∧ (b = [] ∨ b.head? = some '/')) ∧
    (collapseStars p).filter (· ≠ '*') = p.filter (· ≠ '*') ∧
    collapseStars (collapseStars p) = collapseStars p := by
  refine ⟨?_, fun a n b => stars_of_collapseStars, (thins_collapseStars p).filter_eq,
    collapseStars_collapseStars p⟩
  rw [pieces_collapseStars, List.forall₂_map_right_iff, List.forall₂_same]
  exact fun s _ => collapsesSegment_collapseSegment s

end ImportLint.Glob

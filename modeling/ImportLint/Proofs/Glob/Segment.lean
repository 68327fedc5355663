import ImportLint.Glob.Pattern

/-!
# The segments of a spelling and what they match

A spelling read unit by unit, without regard to runs of stars, and cut at the slashes that do not
lie in a bracket class. What such **segments** match is said here segment by segment, without tokens
and without a search.
-/

namespace ImportLint.Glob

/-- The units of a spelling: every star counts for itself, and a bracket that opens no class is a
character. -/
def units : List Char → List Token
  | [] => []
  | '?' :: r => .anyChar :: units r
  | '*' :: r => .anySequence :: units r
  | '[' :: r =>
    match _h : Bracket.split r with
    | some (b, rest) => .bracket b :: units rest
    | none => .char '[' :: units r
  | c :: r => .char c :: units r
termination_by s => s.length
decreasing_by
  all_goals simp only [List.length_cons]
  case _ => omega
  case _ => omega
  case _ => have := Bracket.length_lt_of_split _h; omega
  case _ => omega
  case _ => omega

/-- The **segments** of a spelling. -/
def segments (spelling : List Char) : List (List Token) := pieces (.char '/') (units spelling)

/-- Whether a segment is made of stars only, at least two, and so stands for any number of
segments. -/
def isAnySegments (segment : List Token) : Bool :=
  2 ≤ segment.length && segment.all (· == .anySequence)

/-- `SegmentMatches start g s`: the units `g` match all of `s`, a part of one segment of a text;
`start` tells whether it is the segment from its start. No wildcard takes a dot there. -/
inductive SegmentMatches : Bool → List Token → List Char → Prop
  | nil {start} : SegmentMatches start [] []
  | char {start c g s} : SegmentMatches false g s → SegmentMatches start (.char c :: g) (c :: s)
  | anyChar {start c g s} : (start = true → c ≠ '.') → SegmentMatches false g s →
      SegmentMatches start (.anyChar :: g) (c :: s)
  | bracket {start b c g s} : (start = true → c ≠ '.') → b.admits c = true →
      SegmentMatches false g s → SegmentMatches start (.bracket b :: g) (c :: s)
  | anySequence {start u g s} : (start = true → isHidden u = false) →
      SegmentMatches (start && u.isEmpty) g s → SegmentMatches start (.anySequence :: g) (u ++ s)

/-- The segments of a pattern **match** those of a text in order. A segment of stars only stands for
any number of segments of the text, none of them hidden, but for one at least if it comes last; any
other stands for one. -/
inductive SegmentsMatch : List (List Token) → List (List Char) → Prop
  | nil : SegmentsMatch [] []
  | one {g gs s ss} : isAnySegments g = false → SegmentMatches true g s → SegmentsMatch gs ss →
      SegmentsMatch (g :: gs) (s :: ss)
  | any {g gs skipped ss} : isAnySegments g = true → (∀ s ∈ skipped, isHidden s = false) →
      (gs = [] → skipped ≠ []) → SegmentsMatch gs ss → SegmentsMatch (g :: gs) (skipped ++ ss)

/-! ## Units -/

section

attribute [local simp] units

/-- The empty text has no units. -/
@[simp] theorem units_nil : units [] = [] := by simp

/-- A question mark is a unit. -/
@[simp] theorem units_anyChar (r : List Char) : units ('?' :: r) = .anyChar :: units r := by
  simp

/-- A star is a unit. -/
@[simp] theorem units_star (r : List Char) : units ('*' :: r) = .anySequence :: units r := by
  simp

end

/-- A class that is closed is one unit. -/
theorem units_bracket {r rest : List Char} {b : Bracket} (h : Bracket.split r = some (b, rest)) :
    units ('[' :: r) = .bracket b :: units rest := by
  rw [units]
  split <;> simp_all

/-- A bracket that no other closes is a plain character. -/
theorem units_openBracket {r : List Char} (h : Bracket.split r = none) :
    units ('[' :: r) = .char '[' :: units r := by
  rw [units]
  split <;> simp_all

/-- Any other character is a unit by itself. -/
theorem units_char {c : Char} (h₁ : c ≠ '?') (h₂ : c ≠ '*') (h₃ : c ≠ '[') (r : List Char) :
    units (c :: r) = .char c :: units r := by
  rw [units]
  all_goals simp_all

/-! ## Segments -/

/-- The empty text is one empty segment. -/
@[simp] theorem segments_nil : segments [] = [[]] := by simp [segments]

/-- A slash in front adds an empty segment. -/
@[simp] theorem segments_slash (r : List Char) : segments ('/' :: r) = [] :: segments r := by
  rw [segments, units_char (by decide) (by decide) (by decide), pieces_cons_self, segments]

/-- A unit that is no slash goes to the first segment. -/
theorem segments_of_units {s r : List Char} {u : Token} (h : units s = u :: units r)
    (hu : u ≠ .char '/') : segments s = (segments r).modifyHead (u :: ·) := by
  rw [segments, h, pieces_cons_of_ne hu, segments]

/-- There is always a first segment. -/
theorem exists_segments_eq_cons (s : List Char) : ∃ g gs, segments s = g :: gs :=
  exists_pieces_eq_cons ..

/-- Whatever comes first, if it is no slash, is a unit of the first segment. -/
theorem exists_units_eq_cons {c : Char} (hc : c ≠ '/') (r : List Char) :
    ∃ u r', units (c :: r) = u :: units r' ∧ u ≠ .char '/' ∧ (u = .anySequence → c = '*') := by
  by_cases h₁ : c = '?'
  · exact ⟨.anyChar, r, by rw [h₁, units_anyChar], by simp, by simp⟩
  by_cases h₂ : c = '*'
  · exact ⟨.anySequence, r, by rw [h₂, units_star], by simp, fun _ => h₂⟩
  by_cases h₃ : c = '['
  · subst h₃
    cases hs : Bracket.split r with
    | some p => exact ⟨.bracket p.1, p.2, units_bracket hs, by simp, by simp⟩
    | none => exact ⟨.char '[', r, units_openBracket hs, by simp, by simp⟩
  · exact ⟨.char c, r, units_char h₁ h₂ h₃ r, by simpa using hc, by simp⟩

/-- Only a star begins with a unit that stands for any sequence. -/
theorem eq_star_of_segments {s : List Char} {g : List Token} {gs : List (List Token)}
    (h : segments s = (.anySequence :: g) :: gs) : ∃ r, s = '*' :: r := by
  cases s with
  | nil => simp at h
  | cons c r =>
    by_cases hc : c = '/'
    · simp [hc] at h
    · obtain ⟨u, r', hu, hslash, hstar⟩ := exists_units_eq_cons hc r
      obtain ⟨g', gs', hg⟩ := exists_segments_eq_cons r'
      rw [segments_of_units hu hslash, hg, List.modifyHead_cons] at h
      exact ⟨r, by rw [hstar (List.cons.inj (List.cons.inj h).1).1]⟩

/-- A first segment without units ends the spelling, or a slash follows at once. -/
theorem eq_nil_or_slash_of_segments {s : List Char} {gs : List (List Token)}
    (h : segments s = [] :: gs) : s = [] ∧ gs = [] ∨ ∃ r, s = '/' :: r ∧ gs = segments r := by
  cases s with
  | nil => exact .inl ⟨rfl, by simpa [eq_comm] using h⟩
  | cons c r =>
    by_cases hc : c = '/'
    · subst hc
      exact .inr ⟨r, rfl, by simpa [eq_comm] using h⟩
    · obtain ⟨u, r', hu, hslash, -⟩ := exists_units_eq_cons hc r
      obtain ⟨g', gs', hg⟩ := exists_segments_eq_cons r'
      rw [segments_of_units hu hslash, hg, List.modifyHead_cons] at h
      simp at h

/-- An empty segment is no recursive one. -/
@[simp] theorem isAnySegments_nil : isAnySegments [] = false := rfl

/-- A segment with any unit but a star in front is not made of stars only. -/
theorem isAnySegments_cons_of_ne {u : Token} (h : u ≠ .anySequence) (g : List Token) :
    isAnySegments (u :: g) = false := by
  simp [isAnySegments, h]

/-- One star is not enough. -/
theorem isAnySegments_star_cons {g : List Token} (h : g.head? ≠ some .anySequence) :
    isAnySegments (.anySequence :: g) = false := by
  cases g with
  | nil => rfl
  | cons u g => simp_all [isAnySegments]

/-! ## Matching -/

/-- An empty segment matches the empty text only. -/
@[simp] theorem segmentMatches_nil_iff {start : Bool} {s : List Char} :
    SegmentMatches start [] s ↔ s = [] := by
  constructor
  · rintro ⟨⟩
    rfl
  · rintro rfl
    exact .nil

/-- No segments match no segments only. -/
@[simp] theorem segmentsMatch_nil_iff {ss : List (List Char)} : SegmentsMatch [] ss ↔ ss = [] := by
  constructor
  · rintro ⟨⟩
    rfl
  · rintro rfl
    exact .nil

section

variable {g g' : List Token} {gs : List (List Token)} {ss : List (List Char)}

/-- A segment that is not recursive matches the first segment of a text, and the others match the
rest. -/
theorem segmentsMatch_one_iff (hg : isAnySegments g = false) :
    SegmentsMatch (g :: gs) ss ↔
      ∃ s ss', ss = s :: ss' ∧ SegmentMatches true g s ∧ SegmentsMatch gs ss' := by
  constructor
  · intro h
    cases h with
    | one _ hs h => exact ⟨_, _, rfl, hs, h⟩
    | any hg' => simp [hg] at hg'
  · rintro ⟨s, ss', rfl, hs, h⟩
    exact .one hg hs h

/-- A recursive segment skips segments that are not hidden, and at least one if it is the last. -/
theorem segmentsMatch_any_iff (hg : isAnySegments g = true) :
    SegmentsMatch (g :: gs) ss ↔
      ∃ skipped ss', ss = skipped ++ ss' ∧ (∀ s ∈ skipped, isHidden s = false) ∧
        (gs = [] → skipped ≠ []) ∧ SegmentsMatch gs ss' := by
  constructor
  · intro h
    cases h with
    | one hg' => simp [hg] at hg'
    | any _ hs hne h => exact ⟨_, _, rfl, hs, hne, h⟩
  · rintro ⟨skipped, ss', rfl, hs, hne, h⟩
    exact .any hg hs hne h

/-- Stars that come last stand for whatever is left, if there is anything. -/
theorem segmentsMatch_singleton_any_iff (hg : isAnySegments g = true) :
    SegmentsMatch [g] ss ↔ ss ≠ [] ∧ ∀ s ∈ ss, isHidden s = false := by
  rw [segmentsMatch_any_iff hg]
  constructor
  · rintro ⟨skipped, ss', rfl, hs, hne, h⟩
    obtain rfl := segmentsMatch_nil_iff.1 h
    rw [List.append_nil]
    exact ⟨hne rfl, hs⟩
  · rintro ⟨hne, hs⟩
    exact ⟨ss, [], by simp, hs, fun _ => hne, .nil⟩

/-- Segments match at least one segment, if there are any. -/
theorem SegmentsMatch.eq_nil (h : SegmentsMatch gs []) : gs = [] := by
  generalize hss : ([] : List (List Char)) = ss at h
  induction h with
  | nil => rfl
  | one => simp at hss
  | any _ _ hne _ ih =>
    obtain ⟨rfl, rfl⟩ := List.nil_eq_append_iff.1 hss
    exact absurd rfl (hne (ih rfl))

/-- Two segments of stars in a row say what one says. -/
theorem segmentsMatch_again_iff (hg : isAnySegments g = true) (hg' : isAnySegments g' = true) :
    SegmentsMatch (g :: g' :: gs) ss ↔ SegmentsMatch (g' :: gs) ss := by
  rw [segmentsMatch_any_iff hg]
  constructor
  · rintro ⟨skipped, ss', rfl, hs, -, h⟩
    obtain ⟨skipped', ss'', rfl, hs', hne, h⟩ := (segmentsMatch_any_iff hg').1 h
    rw [← List.append_assoc]
    refine .any hg' (fun s hm => ?_) (fun hgs => ?_) h
    · rcases List.mem_append.1 hm with hm | hm
      · exact hs s hm
      · exact hs' s hm
    · simp [hne hgs]
  · intro h
    exact ⟨[], ss, rfl, by simp, by simp, h⟩

end

end ImportLint.Glob

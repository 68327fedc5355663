import ImportLint.Proofs.Glob.Matching
import ImportLint.Proofs.Traverse
import Mathlib.Data.List.TakeWhile

/-!
# Directories

A spelling `dir/**` without a wildcard in `dir` also covers what lies below the directory, found by
comparing characters. Put in terms of segments this is nothing new: literal segments, and stars for
the rest. Only slashes before the stars make a difference, since the comparison passes over them.
-/

namespace ImportLint.Glob

/-- Whether a character stands for itself in a spelling. -/
def IsPlain (c : Char) : Prop := c ≠ '*' ∧ c ≠ '?' ∧ c ≠ '['

/-- The units of a text in which every character stands for itself. -/
def literal (s : List Char) : List Token := s.map .char

/-- Plain characters are units of their own, whatever follows them. -/
theorem units_append_of_plain {s : List Char} (h : ∀ c ∈ s, IsPlain c) (r : List Char) :
    units (s ++ r) = literal s ++ units r := by
  induction s with
  | nil => rfl
  | cons c s ih =>
    obtain ⟨hstar, hany, hopen⟩ := h c List.mem_cons_self
    rw [List.cons_append, units_char hany hstar hopen,
      ih fun d hd => h d (List.mem_cons_of_mem c hd)]
    rfl

/-- The pieces of a literal are those of its text. -/
theorem pieces_literal (s : List Char) :
    pieces (.char '/') (literal s) = (pieces '/' s).map literal := by
  induction s with
  | nil => rfl
  | cons c s ih =>
    rw [literal, List.map_cons, ← literal]
    by_cases hc : c = '/'
    · rw [hc, pieces_cons_self, pieces_cons_self, ih]
      rfl
    · obtain ⟨p, ps, hp⟩ := exists_pieces_eq_cons '/' s
      have hc' : Token.char c ≠ .char '/' := by simpa using hc
      rw [pieces_cons_of_ne hc, pieces_cons_of_ne hc', ih, hp]
      rfl

/-- The segments before a slash, if every character stands for itself there. -/
theorem segments_plain_slash {s : List Char} (h : ∀ c ∈ s, IsPlain c) (r : List Char) :
    segments (s ++ '/' :: r) = (pieces '/' s).map literal ++ segments r := by
  rw [segments, units_append_of_plain h, units_char (by decide) (by decide) (by decide),
    pieces_append_cons, pieces_literal, segments]

/-- Slashes before two stars add empty segments before the recursive one. -/
theorem segments_slashes_stars (n : Nat) :
    segments (List.replicate n '/' ++ ['*', '*']) = List.replicate n [] ++ [anySegment] := by
  induction n with
  | zero => simp [segments, anySegment, pieces]
  | succ n ih => rw [List.replicate_succ, List.cons_append, segments_slash, ih, List.replicate_succ,
      List.cons_append]

/-- What is dropped at the end. -/
theorem exists_dropEndWhile_append_replicate (a : Char) (s : List Char) :
    ∃ n, s = dropEndWhile (· == a) s ++ List.replicate n a := by
  refine ⟨(s.reverse.takeWhile (· == a)).length, ?_⟩
  have hall : ∀ c ∈ s.reverse.takeWhile (· == a), c = a := by
    intro c hc
    simpa using List.mem_takeWhile_imp hc
  have hreplicate := List.eq_replicate_length.2 hall
  calc s = (s.reverse.takeWhile (· == a) ++ s.reverse.dropWhile (· == a)).reverse := by
        rw [List.takeWhile_append_dropWhile, List.reverse_reverse]
    _ = dropEndWhile (· == a) s ++ (s.reverse.takeWhile (· == a)).reverse := List.reverse_append
    _ = dropEndWhile (· == a) s ++ List.replicate (s.reverse.takeWhile (· == a)).length a := by
        conv_lhs => rw [hreplicate, List.reverse_replicate]

/-- A spelling that covers a directory: the directory, slashes and two stars. -/
theorem spelling_of_directory? {alt : Alternative} {dir : List Char}
    (h : alt.directory? = some dir) :
    (∃ n, alt.spelling = dir ++ '/' :: (List.replicate n '/' ++ ['*', '*'])) ∧
      ∀ c ∈ dir, IsPlain c := by
  obtain ⟨front, hfront, hdir⟩ := Option.bind_eq_some_iff.1 h
  rw [stripSuffix?_eq_some_iff] at hfront
  simp only [Option.ite_none_left_eq_some, Option.some.injEq] at hdir
  obtain ⟨hplain, rfl⟩ := hdir
  refine ⟨?_, fun c hc => ?_⟩
  · obtain ⟨n, hn⟩ := exists_dropEndWhile_append_replicate '/' front
    refine ⟨n, ?_⟩
    -- The slash before the stars may as well be the first of all those after the directory.
    have hslashes : List.replicate n '/' ++ ['/'] = '/' :: List.replicate n '/' := by
      rw [← List.replicate_succ', List.replicate_succ]
    rw [hfront, ← List.cons_append, ← hslashes, List.append_assoc, ← List.append_assoc, ← hn]
    rfl
  · by_contra hc'
    refine hplain (List.any_eq_true.2 ⟨c, hc, ?_⟩)
    simpa [IsPlain, not_and_or, or_assoc, -not_and] using hc'

/-- A text is below a directory if what follows it and a slash has no hidden segment. -/
theorem isBelow_iff {dir text : List Char} : Alternative.isBelow dir text = true ↔
    ∃ rest, text = dir ++ '/' :: rest ∧ ∀ s ∈ pieces '/' rest, isHidden s = false := by
  unfold Alternative.isBelow
  split
  · next rest h =>
    rw [stripPrefix?_eq_some_iff] at h
    constructor
    · intro hhidden
      exact ⟨rest, by simpa using h, by simpa using hhidden⟩
    · rintro ⟨rest', hrest', hhidden⟩
      obtain rfl : rest = rest' := by simpa [h] using hrest'
      simpa using hhidden
  · next h =>
    refine iff_of_false (by simp) ?_
    rintro ⟨rest, hrest, -⟩
    have hsome : stripPrefix? (dir ++ ['/']) text = some rest := by
      rw [stripPrefix?_eq_some_iff, hrest, List.append_assoc]
      rfl
    rw [h] at hsome
    cases hsome

/-- A pattern with one spelling that covers no directory accepts what its tokens do. -/
theorem Pattern.accepts_singleton {alt : Alternative} (h : alt.directory? = none)
    (pattern text : String) :
    (⟨pattern, [alt]⟩ : Pattern).accepts text = Glob.accepts alt.tokens text.toList := by
  rw [Pattern.accepts, List.any_cons, List.any_nil, Bool.or_false,
    Alternative.accepts, h, Option.any_none, Bool.or_false]

/-- What a spelling covers as a directory, in terms of segments. -/
theorem exists_of_isBelow {alt : Alternative} {dir text : List Char}
    (hdir : alt.directory? = some dir) (hbelow : Alternative.isBelow dir text = true) :
    ∃ n below, segments alt.spelling =
        (pieces '/' dir).map literal ++ (List.replicate n [] ++ [anySegment]) ∧
      pieces '/' text = pieces '/' dir ++ below ∧ below ≠ [] ∧ ∀ s ∈ below, isHidden s = false := by
  obtain ⟨⟨n, hn⟩, hplain⟩ := spelling_of_directory? hdir
  obtain ⟨rest, rfl, hhidden⟩ := isBelow_iff.1 hbelow
  refine ⟨n, pieces '/' rest, ?_, pieces_append_cons .., by simp, hhidden⟩
  rw [hn, segments_plain_slash hplain, segments_slashes_stars]

/-! ## Literal segments -/

/-- A literal matches its text. -/
theorem segmentMatches_literal (start : Bool) (s : List Char) :
    SegmentMatches start (literal s) s := by
  induction s generalizing start with
  | nil => exact .nil
  | cons c s ih => exact .char (ih false)

/-- A literal is no recursive segment. -/
theorem isAnySegments_literal (s : List Char) : isAnySegments (literal s) = false := by
  cases s with
  | nil => rfl
  | cons c s => exact isAnySegments_cons_of_ne (by simp) _

/-- Literal segments in front of others match themselves. -/
theorem segmentsMatch_literal_append (ps : List (List Char)) {gs : List (List Token)}
    {ss : List (List Char)} (h : SegmentsMatch gs ss) :
    SegmentsMatch (ps.map literal ++ gs) (ps ++ ss) := by
  induction ps with
  | nil => exact h
  | cons p ps ih => exact .one (isAnySegments_literal p) (segmentMatches_literal true p) ih

/-- A spelling is checked with its stars collapsed. -/
theorem Alternative.ofSpelling?_eq_ok_iff {w : List Char} {alt : Alternative} :
    Alternative.ofSpelling? w = .ok alt ↔
      tokenise (collapseStars w) = .ok alt.tokens ∧ alt.spelling = collapseStars w := by
  rw [Alternative.ofSpelling?, map_eq_ok_iff]
  constructor
  · rintro ⟨ts, hts, rfl⟩
    exact ⟨hts, rfl⟩
  · rintro ⟨hts, hspelling⟩
    exact ⟨alt.tokens, hts, by rw [← hspelling]⟩

/-- What a spelling accepts: what its segments match, or what lies below the directory that it
covers. -/
theorem Alternative.accepts_iff {w : List Char} {alt : Alternative}
    (h : Alternative.ofSpelling? w = .ok alt) (text : List Char) : alt.accepts text = true ↔
      SegmentsMatch (trim (segments (collapseStars w))) (pieces '/' text) ∨
        ∃ dir, alt.directory? = some dir ∧ Alternative.isBelow dir text = true := by
  obtain ⟨hts, -⟩ := Alternative.ofSpelling?_eq_ok_iff.1 h
  rw [Alternative.accepts, Bool.or_eq_true, accepts_tokenise_iff hts, Option.any_eq_true]

end ImportLint.Glob

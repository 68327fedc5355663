import ImportLint.Proofs.Glob.Faults
import ImportLint.Proofs.Glob.Meaning

/-!
# What a directory covers

A text without wildcards is a pattern that accepts the text alone. With `/**` after it, it is the
pattern of a directory: whatever lies below, unless a segment there is hidden. The tokens say so by
themselves, except that they do not pass over slashes at the end of the directory, as the comparison
of characters does.
-/

namespace ImportLint.Glob

/-! ## Texts without wildcards -/

/-- Whether a text is **bare**, without wildcards and without an opening brace. -/
def IsBare (s : List Char) : Prop := ∀ c ∈ s, IsPlain c ∧ c ≠ '\x7b'

/-- Whether a character is plain can be decided. -/
instance (c : Char) : Decidable (IsPlain c) := inferInstanceAs (Decidable (_ ∧ _ ∧ _))

/-- Whether a text is bare can be decided. -/
instance (s : List Char) : Decidable (IsBare s) := List.decidableBAll _ s

/-- A bare text has only plain characters. -/
theorem IsBare.isPlain {s : List Char} (h : IsBare s) : ∀ c ∈ s, IsPlain c := fun c hc => (h c hc).1

/-- A bare text opens no brace. -/
theorem IsBare.open_notMem {s : List Char} (h : IsBare s) : '\x7b' ∉ s := fun hc => (h _ hc).2 rfl

/-- A literal segment matches itself only. -/
@[simp] theorem segmentMatches_literal_iff {start : Bool} {s t : List Char} :
    SegmentMatches start (literal s) t ↔ t = s := by
  constructor
  · intro h
    induction s generalizing start t with
    | nil => exact segmentMatches_nil_iff.1 h
    | cons c s ih =>
      cases h with
      | char h => rw [ih h]
  · rintro rfl
    exact segmentMatches_literal start t

/-- Literal segments in front of others match themselves and nothing else. -/
theorem segmentsMatch_literal_append_iff {ps : List (List Char)} {gs : List (List Token)}
    {ss : List (List Char)} :
    SegmentsMatch (ps.map literal ++ gs) ss ↔ ∃ rest, ss = ps ++ rest ∧ SegmentsMatch gs rest := by
  constructor
  · intro h
    induction ps generalizing ss with
    | nil => exact ⟨ss, rfl, h⟩
    | cons p ps ih =>
      obtain ⟨s, ss', rfl, hs, h⟩ := (segmentsMatch_one_iff (isAnySegments_literal p)).1 h
      obtain ⟨rest, rfl, hrest⟩ := ih h
      rw [segmentMatches_literal_iff.1 hs]
      exact ⟨rest, rfl, hrest⟩
  · rintro ⟨rest, rfl, hrest⟩
    exact segmentsMatch_literal_append ps hrest

/-- What is trimmed stands at the very end. -/
theorem trim_append {tail : List (List Token)} (hne : tail ≠ []) (hempty : tail ≠ [[]])
    (stem : List (List Token)) : trim (stem ++ tail) = stem ++ trim tail := by
  induction stem with
  | nil => rfl
  | cons g stem ih =>
    have hlater : stem ++ tail ≠ [[]] := by
      rw [Ne, List.append_eq_singleton_iff]
      rintro (⟨-, htail⟩ | ⟨-, htail⟩)
      · exact hempty htail
      · exact hne htail
    rw [List.cons_append, trim_cons_of_ne hlater, ih, List.cons_append]

/-- Pieces that are not changed make the same spelling again. -/
theorem collapseStars_eq_self {s : List Char} (h : ∀ p ∈ pieces '/' s, collapseSegment p = p) :
    collapseStars s = s := by
  rw [collapseStars, List.map_congr_left h, List.map_id', joinPieces_pieces]

/-- A segment of plain characters has no stars to collapse. -/
theorem collapseSegment_of_plain {s p : List Char} (h : ∀ c ∈ s, IsPlain c)
    (hp : p ∈ pieces '/' s) : collapseSegment p = p :=
  collapseSegment_eq_self fun hstars =>
    (h '*' (mem_of_mem_pieces hp (hstars.subset (by simp)))).1 rfl

section

variable {s : List Char} (hs : ∀ c ∈ s, IsPlain c)

include hs

/-- A plain text has no stars to collapse. -/
theorem collapseStars_of_plain : collapseStars s = s :=
  collapseStars_eq_self fun _ => collapseSegment_of_plain hs

/-- The segments of a plain text are its pieces, taken literally. -/
theorem segments_of_plain : segments s = (pieces '/' s).map literal := by
  have hunits := units_append_of_plain hs []
  rw [List.append_nil, units_nil, List.append_nil] at hunits
  rw [segments, hunits, pieces_literal]

/-- A plain text opens no class. -/
theorem closesClasses_append_of_plain {r : List Char} (hr : ClosesClasses r) :
    ClosesClasses (s ++ r) := by
  rw [closesClasses_iff_units] at hr ⊢
  rw [units_append_of_plain hs, List.mem_append]
  rintro (h | h)
  · obtain ⟨c, hc, hopen⟩ := List.mem_map.1 h
    obtain rfl := Token.char.inj hopen
    exact (hs _ hc).2.2 rfl
  · exact hr h

/-- The two stars after a plain directory stand alone and are kept. -/
theorem collapseStars_covering : collapseStars (s ++ ['/', '*', '*']) = s ++ ['/', '*', '*'] := by
  refine collapseStars_eq_self fun p hp => ?_
  rw [pieces_append_cons, List.mem_append] at hp
  rcases hp with hp | hp
  · exact collapseSegment_of_plain hs hp
  · obtain rfl : p = ['*', '*'] := by simpa [pieces] using hp
    rfl

end

/-- A text without braces that is checked is a pattern with one spelling. -/
theorem Pattern.ofString?_of_notMem {text : String} (hne : text.toList ≠ [])
    (hbrace : '\x7b' ∉ text.toList) {alt : Alternative}
    (halt : Alternative.ofSpelling? text.toList = .ok alt) :
    Pattern.ofString? text = .ok ⟨text, [alt]⟩ := by
  have hempty : ¬ text.isEmpty = true := by simpa using hne
  rw [Pattern.ofString?, if_neg hempty, spellings_of_notMem hbrace, List.mapM_cons,
    List.mapM_nil, halt]
  rfl

/-- A pattern with one alternative accepts what this alternative does. -/
theorem Pattern.accepts_of_alternatives {p : Pattern} {alt : Alternative}
    (h : p.alternatives = [alt]) (text : String) : p.accepts text = alt.accepts text.toList := by
  rw [Pattern.accepts, h, List.any_cons, List.any_nil, Bool.or_false]

/-- Literal segments are kept by trimming, as none is a recursive one. -/
theorem trim_map_literal (ps : List (List Char)) : trim (ps.map literal) = ps.map literal := by
  induction ps with
  | nil => rfl
  | cons p ps ih => rw [List.map_cons, trim_cons_of_not (isAnySegments_literal p), ih]

/-- A spelling without wildcards accepts itself only. -/
theorem Alternative.accepts_iff_eq {s : List Char} (hs : ∀ c ∈ s, IsPlain c) {alt : Alternative}
    (halt : ofSpelling? s = .ok alt) (text : List Char) : alt.accepts text = true ↔ text = s := by
  have hdirectory : ¬ ∃ dir, alt.directory? = some dir ∧ isBelow dir text = true := by
    -- Without a star there is no directory to cover.
    rintro ⟨dir, hdir, -⟩
    obtain ⟨⟨n, hn⟩, -⟩ := spelling_of_directory? hdir
    rw [(ofSpelling?_eq_ok_iff.1 halt).2, collapseStars_of_plain hs] at hn
    exact (hs '*' (by simp [hn])).1 rfl
  have hmatch := @segmentsMatch_literal_append_iff (pieces '/' s) [] (pieces '/' text)
  simp only [List.append_nil, segmentsMatch_nil_iff, exists_eq_right] at hmatch
  rw [accepts_iff halt, or_iff_left hdirectory, collapseStars_of_plain hs,
    segments_of_plain hs, trim_map_literal, hmatch]
  constructor
  · intro hpieces
    rw [← joinPieces_pieces '/' text, hpieces, joinPieces_pieces]
  · rintro rfl
    rfl

/-- **A text without wildcards and braces** is a pattern that accepts itself only. -/
theorem Pattern.exists_accepts_iff_eq {text : String} (hne : text.toList ≠ [])
    (hbare : IsBare text.toList) :
    ∃ p, Pattern.ofString? text = .ok p ∧ ∀ s, p.accepts s = true ↔ s = text := by
  have hnil : ClosesClasses [] := by simp [closesClasses_iff_units]
  have hcloses := closesClasses_append_of_plain hbare.isPlain hnil
  rw [List.append_nil] at hcloses
  obtain ⟨alt, halt⟩ := Alternative.exists_ofSpelling?_eq_ok_iff.2 hcloses
  refine ⟨_, ofString?_of_notMem hne hbare.open_notMem halt, fun s => ?_⟩
  rw [accepts_of_alternatives rfl, Alternative.accepts_iff_eq hbare.isPlain halt, String.toList_inj]

/-! ## Directories -/

/-- Two lists of pieces that are not empty are joined with a separator between them. -/
theorem joinPieces_append {β : Type} {sep : β} {ps qs : List (List β)}
    (hps : ps ≠ []) (hqs : qs ≠ []) :
    joinPieces sep (ps ++ qs) = joinPieces sep ps ++ sep :: joinPieces sep qs := by
  induction ps with
  | nil => exact absurd rfl hps
  | cons p ps ih =>
    by_cases h : ps = []
    · rw [h, List.singleton_append, joinPieces_cons hqs, joinPieces_singleton]
    · rw [List.cons_append, joinPieces_cons (by simp [h]), ih h, joinPieces_cons h,
        List.append_assoc, List.cons_append]

/-- Separators at the end add as many empty pieces. -/
theorem pieces_append_replicate {β : Type} [DecidableEq β] (sep : β) (s : List β) (n : Nat) :
    pieces sep (s ++ List.replicate n sep) = pieces sep s ++ List.replicate n [] := by
  induction n with
  | zero => rw [List.replicate_zero, List.replicate_zero, List.append_nil, List.append_nil]
  | succ n ih =>
    rw [List.replicate_succ', ← List.append_assoc, pieces_append_cons, ih,
      pieces_nil, List.append_assoc, ← List.replicate_succ']

section

variable {dir text : List Char}

/-- What goes on after a directory and a slash has the segments of the directory and then others. -/
theorem exists_append_cons_iff {P : List (List Char) → Prop} :
    (∃ rest, text = dir ++ '/' :: rest ∧ P (pieces '/' rest)) ↔
      ∃ below, pieces '/' text = pieces '/' dir ++ below ∧ below ≠ [] ∧ P below := by
  constructor
  · rintro ⟨rest, rfl, hrest⟩
    exact ⟨pieces '/' rest, pieces_append_cons .., pieces_ne_nil '/' rest, hrest⟩
  · rintro ⟨below, hpieces, hne, hbelow⟩
    refine ⟨joinPieces '/' below, ?_, by rwa [pieces_joinPieces_of_append hpieces hne]⟩
    rw [← joinPieces_pieces '/' text, hpieces, joinPieces_append (pieces_ne_nil '/' dir) hne,
      joinPieces_pieces]

/-- What follows a directory and a slash lies below it unless it has a hidden segment. -/
theorem isBelow_append_cons_iff {rest : List Char} :
    Alternative.isBelow dir (dir ++ '/' :: rest) = true ↔ ∀ s ∈ pieces '/' rest,
      isHidden s = false := by
  rw [isBelow_iff]
  constructor
  · rintro ⟨rest', hrest, hvisible⟩
    obtain rfl : rest = rest' := (List.cons.inj (List.append_cancel_left hrest)).2
    exact hvisible
  · exact fun hvisible => ⟨rest, rfl, hvisible⟩

/-- A text is below a directory exactly if its pieces are those of the directory and some more, none
of them hidden. -/
theorem isBelow_iff_pieces : Alternative.isBelow dir text = true ↔
    ∃ below, pieces '/' text = pieces '/' dir ++ below ∧ below ≠ [] ∧ ∀ s ∈ below,
      isHidden s = false := by
  rw [isBelow_iff]
  exact exists_append_cons_iff (P := fun below => ∀ s ∈ below, isHidden s = false)

/-- A text starts with a directory and a slash exactly if its pieces go on those of the directory.
-/
theorem startsWith_iff_pieces : dir ++ ['/'] <+: text ↔
    ∃ below, pieces '/' text = pieces '/' dir ++ below ∧ below ≠ [] := by
  have hiff := @exists_append_cons_iff dir text fun _ => True
  simp only [and_true] at hiff
  rw [← hiff]
  simp [List.IsPrefix, eq_comm]

end

/-- Slashes at the end of a directory are passed over. -/
theorem isBelow_dropEndWhile {dir text : List Char} (h : Alternative.isBelow dir text = true) :
    Alternative.isBelow (dropEndWhile (· == '/') dir) text = true := by
  obtain ⟨n, hn⟩ := exists_dropEndWhile_append_replicate '/' dir
  obtain ⟨below, hpieces, hne, hbelow⟩ := isBelow_iff_pieces.1 h
  rw [hn, pieces_append_replicate, List.append_assoc] at hpieces
  refine isBelow_iff_pieces.2 ⟨_, hpieces, by simp [hne], fun s hs => ?_⟩
  rcases List.mem_append.1 hs with hs | hs
  · rw [List.eq_of_mem_replicate hs]
    rfl
  · exact hbelow s hs

/-- What does not end with an element loses nothing. -/
theorem dropEndWhile_eq_self {a : Char} {s : List Char} (h : s.getLast? ≠ some a) :
    dropEndWhile (· == a) s = s := by
  rw [← List.head?_reverse] at h
  rw [dropEndWhile]
  cases hs : s.reverse with
  | nil => exact (List.reverse_eq_nil_iff.1 hs).symm
  | cons c r =>
    have hc : ¬ (c == a) = true := by simpa [hs] using h
    rw [List.dropWhile_cons, if_neg hc, ← hs, List.reverse_reverse]

/-- Dropping a last element makes a list shorter. -/
theorem length_dropEndWhile_lt {a : Char} {s : List Char} (h : s.getLast? = some a) :
    (dropEndWhile (· == a) s).length < s.length := by
  obtain ⟨front, rfl⟩ := List.getLast?_eq_some_iff.1 h
  rw [dropEndWhile, List.reverse_concat, List.dropWhile_cons, if_pos (beq_self_eq_true a),
    List.length_reverse, List.length_append, List.length_singleton, Nat.lt_succ_iff]
  exact (List.length_dropWhile_le ..).trans_eq List.length_reverse

namespace Alternative

variable {dir : List Char} (hplain : ∀ c ∈ dir, IsPlain c)

include hplain

/-- The pattern for everything below a bare directory is well formed. -/
theorem exists_ofSpelling?_covering : ∃ alt, ofSpelling? (dir ++ ['/', '*', '*']) = .ok alt := by
  refine exists_ofSpelling?_eq_ok_iff.2 (closesClasses_append_of_plain hplain ?_)
  rw [closesClasses_iff_units, units_char (by decide) (by decide) (by decide), units_star,
    units_star, units_nil]
  simp

variable {alt : Alternative} (halt : ofSpelling? (dir ++ ['/', '*', '*']) = .ok alt)

include halt

/-- The directory of such a pattern is the one it was made from, without its slashes at the end. -/
theorem directory?_covering : alt.directory? = some (dropEndWhile (· == '/') dir) := by
  obtain ⟨-, hspelling⟩ := ofSpelling?_eq_ok_iff.1 halt
  rw [collapseStars_covering hplain] at hspelling
  have hstrip : stripSuffix? ['/', '*', '*'] alt.spelling = some dir :=
    stripSuffix?_eq_some_iff.2 hspelling
  rw [directory?, hstrip, Option.bind_some]
  refine if_neg fun hany => ?_
  obtain ⟨c, hc, hwild⟩ := List.any_eq_true.1 hany
  obtain ⟨n, hn⟩ := exists_dropEndWhile_append_replicate '/' dir
  obtain ⟨hstar, hany, hopen⟩ := hplain c (hn ▸ List.mem_append_left _ hc)
  simp [hstar, hany, hopen] at hwild

/-- The tokens alone accept what lies below the directory as it is written. -/
theorem accepts_tokens_covering (text : List Char) :
    Glob.accepts alt.tokens text = isBelow dir text := by
  obtain ⟨htokens, -⟩ := ofSpelling?_eq_ok_iff.1 halt
  have hstars : segments ['*', '*'] = [anySegment] := segments_slashes_stars 0
  have hsegments : trim (segments (collapseStars (dir ++ ['/', '*', '*']))) =
      (pieces '/' dir).map literal ++ [anySegment] := by
    rw [collapseStars_covering hplain, segments_plain_slash hplain, hstars]
    exact trim_append (by simp) (by decide) _
  rw [Bool.eq_iff_iff, accepts_tokenise_iff htokens, hsegments,
    segmentsMatch_literal_append_iff, isBelow_iff_pieces]
  simp only [segmentsMatch_singleton_any_iff (rfl : isAnySegments anySegment = true)]

/-- **The pattern of a directory** accepts what lies below the directory without its trailing
slashes. -/
theorem accepts_covering (text : List Char) :
    alt.accepts text = isBelow (dropEndWhile (· == '/') dir) text := by
  rw [accepts, accepts_tokens_covering hplain halt, directory?_covering hplain halt,
    Option.any_some, Bool.eq_iff_iff, Bool.or_eq_true, or_iff_right_of_imp isBelow_dropEndWhile]

end Alternative

/-- The pattern of a directory has one spelling. -/
theorem Pattern.exists_covering {dir : String} (hdir : IsBare dir.toList) :
    ∃ p alt, ofString? (dir ++ "/**") = .ok p ∧ p.alternatives = [alt] ∧
      Alternative.ofSpelling? (dir.toList ++ ['/', '*', '*']) = .ok alt ∧
        ∀ text,
          p.accepts text =
            Alternative.isBelow (dropEndWhile (· == '/') dir.toList) text.toList := by
  have hplain := hdir.isPlain
  have htext : (dir ++ "/**").toList = dir.toList ++ ['/', '*', '*'] := by
    rw [String.toList_append]
    rfl
  have hbrace : '\x7b' ∉ (dir ++ "/**").toList := by
    rw [htext, List.mem_append]
    exact not_or.2 ⟨hdir.open_notMem, by decide⟩
  obtain ⟨alt, halt⟩ := Alternative.exists_ofSpelling?_covering hplain
  refine ⟨_, alt, ofString?_of_notMem (by simp [htext]) hbrace (htext ▸ halt), rfl,
    halt, fun text => ?_⟩
  rw [accepts_of_alternatives rfl, Alternative.accepts_covering hplain halt]

/-- **The meaning of `dir/**`.** If the directory is spelled without wildcards and braces, this is a
pattern with one spelling, and it accepts what lies below the directory, no segment hidden; slashes
at the end of the directory do not count. The tokens of the spelling say so without the comparison
of characters exactly if there are no such slashes. -/
theorem covering_accepts_iff {dir : String} (hdir : IsBare dir.toList) :
    ∃ p alt, Pattern.ofString? (dir ++ "/**") = .ok p ∧ p.alternatives = [alt] ∧
      (∀ text : String, p.accepts text = true ↔
        ∃ rest, text.toList = dropEndWhile (· == '/') dir.toList ++ '/' :: rest ∧
          ∀ s ∈ pieces '/' rest, isHidden s = false) ∧
      ((∀ text, alt.accepts text = Glob.accepts alt.tokens text) ↔
        dir.toList.getLast? ≠ some '/') := by
  have hplain := hdir.isPlain
  obtain ⟨p, alt, hp, halternatives, halt, haccepts⟩ := Pattern.exists_covering hdir
  refine ⟨p, alt, hp, halternatives, fun text => ?_, ?_⟩
  · rw [haccepts, isBelow_iff]
  · simp only [Alternative.accepts_covering hplain halt,
      Alternative.accepts_tokens_covering hplain halt]
    constructor
    · -- The directory with one slash is below itself, but not as it is written.
      intro htokens hslash
      have hbelow : Alternative.isBelow (dropEndWhile (· == '/') dir.toList)
          (dropEndWhile (· == '/') dir.toList ++ ['/']) = true :=
        isBelow_append_cons_iff.2 (by simp [isHidden])
      rw [htokens] at hbelow
      obtain ⟨rest, hrest, -⟩ := isBelow_iff.1 hbelow
      have hlength := congrArg List.length hrest
      have hshorter := length_dropEndWhile_lt hslash
      rw [List.length_append, List.length_append, List.length_cons, List.length_cons,
        List.length_nil] at hlength
      omega
    · intro hlast text
      rw [dropEndWhile_eq_self hlast]

/-- A hidden directory, with slashes after it. -/
theorem covering_accepts_iff_hidden : IsBare "src/.cache//".toList ∧
    ∃ p alt, Pattern.ofString? "src/.cache///**" = .ok p ∧ p.alternatives = [alt] ∧
      p.accepts "src/.cache/a//b" = true ∧ p.accepts "src/.cache/a/.b" = false ∧
        ¬ ∀ text, alt.accepts text = Glob.accepts alt.tokens text := by
  have hdir : IsBare "src/.cache//".toList := by decide +kernel
  have hcut : dropEndWhile (· == '/') "src/.cache//".toList = "src/.cache".toList := by decide
  obtain ⟨p, alt, hp, halt, haccepts, htokens⟩ := covering_accepts_iff hdir
  refine ⟨hdir, p, alt, hp, halt, (haccepts _).2 ⟨"a//b".toList, by decide, by decide⟩, ?_, ?_⟩
  · rw [Bool.eq_false_iff, Ne, haccepts]
    rintro ⟨rest, hrest, hhidden⟩
    have htext : "src/.cache/a/.b".toList = "src/.cache".toList ++ '/' :: "a/.b".toList := by decide
    rw [hcut, htext] at hrest
    obtain rfl : "a/.b".toList = rest := (List.cons.inj (List.append_cancel_left hrest)).2
    exact absurd hhidden (by decide)
  · rw [htokens]
    decide

end ImportLint.Glob

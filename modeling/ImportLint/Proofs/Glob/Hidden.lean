import ImportLint.Proofs.Glob.Collapse
import ImportLint.Proofs.Glob.Directory
import ImportLint.Proofs.Glob.Pattern

/-!
# Hidden segments

A segment of a text is hidden if it starts with a dot. No wildcard takes that dot, so it is written
in the pattern; but stars may stand before it there and take nothing. So a pattern lets hidden
segments through without a segment that starts with a dot exactly if a dot comes right after the
stars at the start of one, in a spelling that accepts anything at all.
-/

namespace ImportLint.Glob

/-- What follows the stars at the start of a segment. -/
def afterStars (g : List Token) : List Token := g.dropWhile (· == .anySequence)

/-- Whether a segment starts with a dot. -/
def StartsWithDot (g : List Token) : Prop := g.head? = some (.char '.')

/-- Whether a segment starts with stars and then a dot. -/
def HidesDot (g : List Token) : Prop :=
  g.head? = some .anySequence ∧ (afterStars g).head? = some (.char '.')

/-- Whether a segment starts with a dot can be decided. -/
instance (g : List Token) : Decidable (StartsWithDot g) :=
  inferInstanceAs (Decidable (g.head? = some (.char '.')))

/-- What follows the stars does not depend on how many there are. -/
@[simp] theorem afterStars_star (g : List Token) : afterStars (.anySequence :: g) = afterStars g :=
  rfl

/-- A segment that starts with no star follows no stars. -/
theorem afterStars_cons_of_ne {t : Token} (h : t ≠ .anySequence) (g : List Token) :
    afterStars (t :: g) = t :: g := by
  simp [afterStars, h]

/-- A dot after stars, if there are any. -/
theorem head?_afterStars_eq_dot_iff {g : List Token} :
    (afterStars g).head? = some (.char '.') ↔ StartsWithDot g ∨ HidesDot g := by
  cases g with
  | nil => simp [afterStars, StartsWithDot, HidesDot]
  | cons t g =>
    by_cases ht : t = .anySequence
    · simp [ht, StartsWithDot, HidesDot]
    · simp [afterStars_cons_of_ne ht, StartsWithDot, HidesDot, ht]

/-! ## One segment -/

/-- What matches a hidden segment has a dot after its stars. -/
theorem SegmentMatches.head?_afterStars {g : List Token} {s : List Char}
    (h : SegmentMatches true g s) (hs : isHidden s = true) :
    (afterStars g).head? = some (.char '.') := by
  induction g generalizing s with
  | nil =>
    obtain rfl := segmentMatches_nil_iff.1 h
    simp [isHidden] at hs
  | cons t g ih =>
    cases h with
    | char _ =>
      rw [afterStars_cons_of_ne (by simp)]
      simpa [isHidden] using hs
    | anyChar hd _ => exact absurd (by simpa [isHidden] using hs) (hd rfl)
    | bracket hd _ _ => exact absurd (by simpa [isHidden] using hs) (hd rfl)
    | @anySequence _ u _ r hd h =>
      -- The star takes nothing, since it may not take the dot.
      cases u with
      | nil => exact ih (by simpa using h) hs
      | cons c u => exact absurd hs (by simpa [isHidden] using hd rfl)

/-- Text before a dot after stars may be left out, so that the segment is hidden. -/
theorem SegmentMatches.exists_hidden {start : Bool} {g : List Token} {s : List Char}
    (h : SegmentMatches start g s) (hg : (afterStars g).head? = some (.char '.')) :
    ∃ u v, s = u ++ '.' :: v ∧ SegmentMatches true g ('.' :: v) := by
  induction h with
  | nil => simp [afterStars] at hg
  | @char start c g s h _ =>
    rw [afterStars_cons_of_ne (by simp)] at hg
    obtain rfl : c = '.' := by simpa using hg
    exact ⟨[], s, rfl, .char h⟩
  | anyChar | bracket =>
    rw [afterStars_cons_of_ne (by simp)] at hg
    simp at hg
  | @anySequence start u g s _ _ ih =>
    obtain ⟨u', v, rfl, hv⟩ := ih hg
    refine ⟨u ++ u', v, by simp, ?_⟩
    have hstar : SegmentMatches true (.anySequence :: g) ([] ++ '.' :: v) :=
      .anySequence (fun _ => rfl) hv
    exact hstar

/-! ## All segments -/

/-- A hidden segment is matched by one with a dot after its stars. -/
theorem SegmentsMatch.exists_dot {gs : List (List Token)} {ss : List (List Char)}
    (h : SegmentsMatch gs ss) {s : List Char} (hs : s ∈ ss) (hhidden : isHidden s = true) :
    ∃ g ∈ gs, (afterStars g).head? = some (.char '.') := by
  induction h with
  | nil => cases hs
  | one _ hone _ ih =>
    rcases List.mem_cons.1 hs with rfl | hs
    · exact ⟨_, List.mem_cons_self, hone.head?_afterStars hhidden⟩
    · obtain ⟨g, hg, hdot⟩ := ih hs
      exact ⟨g, List.mem_cons_of_mem _ hg, hdot⟩
  | any _ hskipped _ _ ih =>
    rcases List.mem_append.1 hs with hs | hs
    · simp [hskipped s hs] at hhidden
    · obtain ⟨g, hg, hdot⟩ := ih hs
      exact ⟨g, List.mem_cons_of_mem _ hg, hdot⟩

/-- What a segment matches may be replaced by anything else that it matches. -/
theorem SegmentsMatch.exists_replace {gs : List (List Token)} {ss : List (List Char)}
    (h : SegmentsMatch gs ss) {g : List Token} (hg : g ∈ gs) (hone : isAnySegments g = false) :
    ∃ before s after, ss = before ++ s :: after ∧ SegmentMatches true g s ∧
      ∀ s', SegmentMatches true g s' → SegmentsMatch gs (before ++ s' :: after) := by
  induction h with
  | nil => cases hg
  | @one g' gs s ss hg' hs hss ih =>
    rcases List.mem_cons.1 hg with rfl | hg
    · exact ⟨[], s, ss, rfl, hs, fun s' hs' => .one hg' hs' hss⟩
    · obtain ⟨before, s₁, after, rfl, hs₁, hreplace⟩ := ih hg
      exact ⟨s :: before, s₁, after, rfl, hs₁, fun s' hs' => .one hg' hs (hreplace s' hs')⟩
  | @any g' gs skipped ss hg' hskipped hne hss ih =>
    rcases List.mem_cons.1 hg with rfl | hg
    · simp [hg'] at hone
    · obtain ⟨before, s₁, after, rfl, hs₁, hreplace⟩ := ih hg
      refine ⟨skipped ++ before, s₁, after, by simp, hs₁, fun s' hs' => ?_⟩
      rw [List.append_assoc]
      exact .any hg' hskipped hne (hreplace s' hs')

/-! ## Collapsed stars -/

/-- Nothing follows the stars of a recursive segment. -/
theorem afterStars_eq_nil {g : List Token} (h : isAnySegments g = true) : afterStars g = [] := by
  have hall : ∀ t ∈ g, (t == .anySequence) = true := by
    simp only [isAnySegments, Bool.and_eq_true, List.all_eq_true] at h
    exact h.2
  exact List.dropWhile_eq_nil_iff.2 hall

/-- A collapsed segment starts as the segment does. -/
theorem head?_collapseUnits (g : List Token) :
    (collapseUnits g).head? = g.head?.map Token.collapse := by
  unfold collapseUnits
  split
  · next h =>
    cases g with
    | nil => simp at h
    | cons t g =>
      obtain rfl : t = .anySequence := by
        by_contra ht
        simp [isAnySegments_cons_of_ne ht] at h
      rfl
  · exact head?_squeeze g

/-- Squeezing keeps what follows the stars. -/
theorem head?_afterStars_squeeze (g : List Token) :
    (afterStars (squeeze g)).head? = (afterStars g).head?.map Token.collapse := by
  fun_induction squeeze g with
  | case1 g ih => exact ih
  | case2 t g hg ih =>
    by_cases ht : t = .anySequence
    · subst ht
      exact ih
    · rw [afterStars_cons_of_ne ht, afterStars_cons_of_ne (mt collapse_eq_anySequence_iff.1 ht)]
      rfl
  | case3 => rfl

/-- A collapsed segment goes on as the segment does after its stars. -/
theorem head?_afterStars_collapseUnits (g : List Token) :
    (afterStars (collapseUnits g)).head? = (afterStars g).head?.map Token.collapse := by
  unfold collapseUnits
  split
  · next h =>
    rw [afterStars_eq_nil h]
    rfl
  · exact head?_afterStars_squeeze g

/-- Collapsing makes no character of what is none. -/
theorem collapse_eq_char_iff {t : Token} {c : Char} : t.collapse = .char c ↔ t = .char c := by
  cases t <;> simp [Token.collapse]

/-- A collapsed segment starts with a dot exactly if the segment does. -/
theorem startsWithDot_collapseUnits {g : List Token} :
    StartsWithDot (collapseUnits g) ↔ StartsWithDot g := by
  simp [StartsWithDot, head?_collapseUnits, collapse_eq_char_iff]

/-- A collapsed segment hides a dot exactly if the segment does. -/
theorem hidesDot_collapseUnits {g : List Token} : HidesDot (collapseUnits g) ↔ HidesDot g := by
  simp [HidesDot, head?_collapseUnits, head?_afterStars_collapseUnits, collapse_eq_char_iff,
    collapse_eq_anySequence_iff]

/-! ## One spelling -/

/-- Trimming adds no segments. -/
theorem mem_of_mem_trim {g : List Token} {gs : List (List Token)} (h : g ∈ trim gs) : g ∈ gs := by
  induction gs with
  | nil => exact h
  | cons g' gs ih =>
    unfold trim at h
    split at h
    · obtain rfl : g = g' := by simpa using h
      exact List.mem_cons_self
    · rcases List.mem_cons.1 h with rfl | h
      · exact List.mem_cons_self
      · exact List.mem_cons_of_mem g' (ih h)

/-- Trimming keeps the segments that are not empty. -/
theorem mem_trim {g : List Token} {gs : List (List Token)} (h : g ∈ gs)
    (hne : g ≠ []) : g ∈ trim gs := by
  induction gs with
  | nil => exact h
  | cons g' gs ih =>
    unfold trim
    split
    · next hlast =>
      obtain ⟨-, rfl⟩ : _ ∧ gs = [[]] := by simpa using hlast
      rcases List.mem_cons.1 h with rfl | h
      · exact List.mem_cons_self
      · exact absurd (List.mem_singleton.1 h) hne
    · rcases List.mem_cons.1 h with rfl | h
      · exact List.mem_cons_self
      · exact List.mem_cons_of_mem g' (ih h)

variable {w : List Char} {alt : Alternative}

/-- A spelling that accepts a hidden segment has a dot after the stars of one of its own. -/
theorem Alternative.exists_dot (h : Alternative.ofSpelling? w = .ok alt) {text s : List Char}
    (htext : alt.accepts text = true) (hs : s ∈ pieces '/' text) (hhidden : isHidden s = true) :
    ∃ g ∈ segments w, StartsWithDot g ∨ HidesDot g := by
  suffices hdot : ∃ g ∈ segments (collapseStars w), (afterStars g).head? = some (.char '.') by
    obtain ⟨g', hg', hdot⟩ := hdot
    rw [segments_collapseStars] at hg'
    obtain ⟨g, hg, rfl⟩ := List.mem_map.1 hg'
    rw [head?_afterStars_eq_dot_iff, startsWithDot_collapseUnits, hidesDot_collapseUnits] at hdot
    exact ⟨g, hg, hdot⟩
  rcases (Alternative.accepts_iff h text).1 htext with hmatch | ⟨dir, hdir, hbelow⟩
  · obtain ⟨g, hg, hdot⟩ := hmatch.exists_dot hs hhidden
    exact ⟨g, mem_of_mem_trim hg, hdot⟩
  · -- Below the directory nothing is hidden, so the directory itself has a segment that is.
    obtain ⟨n, below, hsegments, hpieces, -, hbelow⟩ := exists_of_isBelow hdir hbelow
    rw [(Alternative.ofSpelling?_eq_ok_iff.1 h).2] at hsegments
    rw [hpieces, List.mem_append] at hs
    have hs : s ∈ pieces '/' dir := by
      rcases hs with hs | hs
      · exact hs
      · simp [hbelow s hs] at hhidden
    refine ⟨literal s, ?_, ?_⟩
    · rw [hsegments]
      exact List.mem_append_left _ (List.mem_map_of_mem hs)
    · exact (segmentMatches_literal true s).head?_afterStars hhidden

/-- A segment with a dot after stars is not made of stars only. -/
theorem HidesDot.isAnySegments {g : List Token} (h : HidesDot g) : isAnySegments g = false := by
  by_contra hany
  have hnil := afterStars_eq_nil (by simpa using hany)
  simp [HidesDot, hnil] at h

/-- A directory is spelled without stars, so none of its segments has a dot after some. -/
theorem Alternative.not_hidesDot_of_directory (h : Alternative.ofSpelling? w = .ok alt)
    {dir text : List Char} (hdir : alt.directory? = some dir)
    (hbelow : Alternative.isBelow dir text = true) {g : List Token}
    (hg : g ∈ segments (collapseStars w)) : ¬ HidesDot g := by
  intro hdot
  obtain ⟨n, below, hsegments, -⟩ := exists_of_isBelow hdir hbelow
  rw [(Alternative.ofSpelling?_eq_ok_iff.1 h).2] at hsegments
  rw [hsegments, List.mem_append, List.mem_append, List.mem_singleton] at hg
  rcases hg with hliteral | hslashes | rfl
  · obtain ⟨p, -, rfl⟩ := List.mem_map.1 hliteral
    cases p with
    | nil => simp [HidesDot, literal] at hdot
    | cons c p => simp [HidesDot, literal] at hdot
  · rw [List.eq_of_mem_replicate hslashes] at hdot
    simp [HidesDot] at hdot
  · simpa using hdot.isAnySegments

/-- If the segments of a text match some of which one has a dot after stars, there is a text with a
hidden segment that they match as well. -/
theorem SegmentsMatch.exists_hidden {gs : List (List Token)} {text : List Char}
    (h : SegmentsMatch gs (pieces '/' text)) {g : List Token} (hg : g ∈ gs) (hdot : HidesDot g) :
    ∃ text', SegmentsMatch gs (pieces '/' text') ∧ ∃ s ∈ pieces '/' text', isHidden s = true := by
  obtain ⟨before, s, after, hpieces, hs, hreplace⟩ := h.exists_replace hg hdot.isAnySegments
  obtain ⟨u, v, rfl, hv⟩ := hs.exists_hidden hdot.2
  have hold : ∀ s ∈ before ++ (u ++ '.' :: v) :: after, '/' ∉ s := by
    rw [← hpieces]
    exact fun s hs => notMem_of_mem_pieces hs
  -- The text with that segment cut down to the dot and what follows it.
  have hslash : ∀ s ∈ before ++ ('.' :: v) :: after, '/' ∉ s := by
    simp only [List.mem_append, List.mem_cons] at hold ⊢
    rintro s (hs | rfl | hs)
    · exact hold s (.inl hs)
    · exact fun hmem => hold _ (.inr (.inl rfl)) (List.mem_append_right u hmem)
    · exact hold s (.inr (.inr hs))
  have hpieces' : pieces '/' (joinPieces '/' (before ++ ('.' :: v) :: after)) =
      before ++ ('.' :: v) :: after := pieces_joinPieces (by simp) hslash
  refine ⟨joinPieces '/' (before ++ ('.' :: v) :: after), ?_, '.' :: v, ?_, rfl⟩
  · rw [hpieces']
    exact hreplace _ hv
  · rw [hpieces']
    simp

/-- A spelling with a dot after stars that accepts any text accepts one with a hidden segment. -/
theorem Alternative.exists_hidden (h : Alternative.ofSpelling? w = .ok alt) {g : List Token}
    (hg : g ∈ segments w) (hdot : HidesDot g) {text : List Char} (htext : alt.accepts text = true) :
    ∃ text', alt.accepts text' = true ∧ ∃ s ∈ pieces '/' text', isHidden s = true := by
  have hg' : collapseUnits g ∈ segments (collapseStars w) := by
    rw [segments_collapseStars]
    exact List.mem_map_of_mem hg
  have hdot' : HidesDot (collapseUnits g) := hidesDot_collapseUnits.2 hdot
  have hne : collapseUnits g ≠ [] := by
    intro hnil
    simp [HidesDot, hnil] at hdot'
  rcases (Alternative.accepts_iff h text).1 htext with hmatch | ⟨dir, hdir, hbelow⟩
  · obtain ⟨text', htext', hhidden⟩ := hmatch.exists_hidden (mem_trim hg' hne) hdot'
    exact ⟨text', (Alternative.accepts_iff h text').2 (.inl htext'), hhidden⟩
  · exact absurd hdot' (Alternative.not_hidesDot_of_directory h hdir hbelow hg')

/-! ## Patterns -/

/-- Whether a text has a hidden segment. -/
def HasHidden (s : String) : Prop := ∃ piece ∈ pieces '/' s.toList, isHidden piece = true

/-- **Hidden segments.** If a pattern accepts a text with a hidden segment, one of its spellings has
a segment that starts with a dot, or with stars and then a dot. A segment of the first kind need not
be there: it always is if there is one at all, or else if no spelling with one of the second kind
accepts any text. -/
theorem hidden_segments {text : String} {p : Pattern} (h : Pattern.ofString? text = .ok p) :
    (∀ s, p.accepts s = true → HasHidden s →
      ∃ w ∈ spellings text.toList, ∃ g ∈ segments w, StartsWithDot g ∨ HidesDot g) ∧
    ((∀ s, p.accepts s = true → HasHidden s →
        ∃ w ∈ spellings text.toList, ∃ g ∈ segments w, StartsWithDot g) ↔
      (∃ w ∈ spellings text.toList, ∃ g ∈ segments w, StartsWithDot g) ∨
        ∀ w ∈ spellings text.toList, ∀ alt, Alternative.ofSpelling? w = .ok alt →
          (∃ s : String, alt.accepts s.toList = true) → ∀ g ∈ segments w, ¬ HidesDot g) := by
  have hdot : ∀ s, p.accepts s = true → HasHidden s → ∃ w ∈ spellings text.toList, ∃ alt,
      Alternative.ofSpelling? w = .ok alt ∧ alt.accepts s.toList = true ∧
        ∃ g ∈ segments w, StartsWithDot g ∨ HidesDot g := by
    rintro s hs ⟨piece, hpiece, hhidden⟩
    obtain ⟨w, hw, alt, halt, haccepts⟩ := (accepts_iff_exists_spelling h s).1 hs
    exact ⟨w, hw, alt, halt, haccepts, Alternative.exists_dot halt haccepts hpiece hhidden⟩
  refine ⟨fun s hs hhidden => ?_, fun hrule => ?_, ?_⟩
  · obtain ⟨w, hw, alt, -, -, hg⟩ := hdot s hs hhidden
    exact ⟨w, hw, hg⟩
  · -- Had a spelling with a dot after stars a text, it would have a hidden one, against the rule.
    refine or_iff_not_imp_left.2 fun hnone w hw alt halt htext g hg hhides => hnone ?_
    obtain ⟨s, hs⟩ := htext
    obtain ⟨text', htext', piece, hpiece, hhidden⟩ := Alternative.exists_hidden halt hg hhides hs
    refine hrule (.ofList text') ((accepts_iff_exists_spelling h _).2 ⟨w, hw, alt, halt, ?_⟩)
      ⟨piece, ?_, hhidden⟩
    · rwa [String.toList_ofList]
    · rwa [String.toList_ofList]
  · rintro (hsome | hnone) s hs hhidden
    · exact hsome
    · obtain ⟨w, hw, alt, halt, haccepts, g, hg, hstarts | hhides⟩ := hdot s hs hhidden
      · exact ⟨w, hw, g, hg, hstarts⟩
      · exact absurd hhides (hnone w hw alt halt ⟨s, haccepts⟩ g hg)

/-- A star that takes nothing before a dot. -/
theorem Alternative.exists_accepts_star : ∃ alt, Alternative.ofSpelling? "*.ts".toList = .ok alt ∧
    alt.accepts ".ts".toList = true := by
  have hok : ∃ alt, Alternative.ofSpelling? "*.ts".toList = .ok alt := by
    rw [exists_eq_ok_iff]
    decide +kernel
  have hsegments : trim (segments (collapseStars "*.ts".toList)) =
      [.anySequence :: literal ".ts".toList] := by decide +kernel
  have hstar : SegmentMatches true (.anySequence :: literal ".ts".toList) ([] ++ ".ts".toList) :=
    .anySequence (fun _ => rfl) (segmentMatches_literal true _)
  obtain ⟨alt, halt⟩ := hok
  refine ⟨alt, halt, (Alternative.accepts_iff halt _).2 (.inl ?_)⟩
  rw [hsegments]
  exact .one rfl hstar .nil

/-- A pattern that lets a hidden file through, though no segment of it starts with a dot. -/
theorem star_takes_nothing : ∃ p, Pattern.ofString? "*.ts" = .ok p ∧ p.accepts ".ts" = true ∧
    HasHidden ".ts" ∧ ¬ ∃ w ∈ spellings "*.ts".toList, ∃ g ∈ segments w, StartsWithDot g := by
  have hok : ∃ p, Pattern.ofString? "*.ts" = .ok p := by
    rw [exists_eq_ok_iff]
    decide +kernel
  obtain ⟨p, hp⟩ := hok
  obtain ⟨alt, halt, haccepts⟩ := Alternative.exists_accepts_star
  refine ⟨p, hp, (accepts_iff_exists_spelling hp _).2 ?_, ⟨".ts".toList, by decide, rfl⟩,
    by decide +kernel⟩
  exact ⟨"*.ts".toList, by decide +kernel, alt, halt, haccepts⟩

/-- The exception at that pattern. -/
theorem hidden_segments_star : ∃ p, Pattern.ofString? "*.ts" = .ok p ∧
    ¬ ∀ s, p.accepts s = true → HasHidden s →
      ∃ w ∈ spellings "*.ts".toList, ∃ g ∈ segments w, StartsWithDot g := by
  have hok : ∃ p, Pattern.ofString? "*.ts" = .ok p := by
    rw [exists_eq_ok_iff]
    decide +kernel
  obtain ⟨p, hp⟩ := hok
  obtain ⟨alt, halt, haccepts⟩ := Alternative.exists_accepts_star
  refine ⟨p, hp, fun hrule => ?_⟩
  rcases (hidden_segments hp).2.1 hrule with hsome | hnone
  · revert hsome
    decide +kernel
  · exact hnone "*.ts".toList (by decide +kernel) alt halt ⟨".ts", haccepts⟩
      (.anySequence :: literal ".ts".toList) (by decide +kernel) ⟨rfl, rfl⟩

end ImportLint.Glob

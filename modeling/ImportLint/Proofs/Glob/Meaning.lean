import ImportLint.Proofs.Glob.Collapse
import ImportLint.Proofs.Glob.Directory
import ImportLint.Proofs.Glob.Pattern

/-!
# What a pattern means

A pattern without braces has one spelling, itself. If its segments are not empty, it accepts a text
exactly if they match those of the text in order: collapsing stars changes nothing, unless two stars
in a row in a class are a range of characters with them, and neither does what a pattern covers as a
directory.
-/

namespace ImportLint.Glob

/-! ## Without braces -/

/-- A text without braces opens no group. -/
theorem open_notMem_braceLexemes {s : List Char} (h : '\x7b' ∉ s) : .open ∉ braceLexemes s := by
  intro hopen
  refine h ?_
  rw [← flatMap_chars_braceLexemes s]
  exact List.mem_flatMap.2 ⟨.open, hopen, by simp [BraceLexeme.chars]⟩

/-- Outside all groups, lexemes that open none are text. -/
theorem BraceState.run_of_notMem (ls : List BraceLexeme) (h : .open ∉ ls) (cur : Spellings) :
    run ⟨[], cur⟩ ls = ⟨[], cur.append [ls.flatMap BraceLexeme.chars]⟩ := by
  induction ls generalizing cur with
  | nil => simp
  | cons l ls ih =>
    obtain ⟨hl, hls⟩ : l ≠ .open ∧ .open ∉ ls := by simpa [eq_comm] using h
    have hnext : next ⟨[], cur⟩ l = ⟨[], cur.append [l.chars]⟩ := by
      cases l with
      | «open» => exact absurd rfl hl
      | _ => rfl
    rw [run_cons, hnext, ih hls, Spellings.append_assoc]
    simp [Spellings.append]

/-- Without braces outside its classes a pattern has no spelling but itself. -/
theorem spellings_of_open_notMem {s : List Char} (h : .open ∉ braceLexemes s) :
    spellings s = [s] := by
  have hrun := BraceState.run_of_notMem (braceLexemes s) h [[]]
  show (BraceState.start.run (braceLexemes s)).finish = [s]
  rw [BraceState.start, hrun, flatMap_chars_braceLexemes, Spellings.empty_append]
  rfl

/-- A text without braces is its only spelling. -/
theorem spellings_of_notMem {s : List Char} (h : '\x7b' ∉ s) : spellings s = [s] :=
  spellings_of_open_notMem (open_notMem_braceLexemes h)

/-! ## Collapsed stars -/

/-- A star takes what two in a row take. -/
theorem segmentMatches_star_star_iff {start : Bool} {g : List Token} {s : List Char} :
    SegmentMatches start (.anySequence :: .anySequence :: g) s ↔
      SegmentMatches start (.anySequence :: g) s := by
  rw [segmentMatches_star_iff]
  constructor
  · rintro ⟨u, r, rfl, hu, h⟩
    obtain ⟨v, r, rfl, hv, h⟩ := segmentMatches_star_iff.1 h
    rw [← List.append_assoc]
    refine .anySequence (fun hstart => ?_) (by rwa [isEmpty_append, ← Bool.and_assoc])
    -- The second star comes first in the segment only if the first takes nothing.
    cases u with
    | nil => exact hv (by simpa using hstart)
    | cons c u => exact hu hstart
  · intro h
    exact ⟨[], s, rfl, fun _ => rfl, by simpa using h⟩

/-- Whether collapsing stars leaves the classes of a segment as they are. -/
def KeepsClasses (g : List Token) : Prop := ∀ t ∈ g, t.collapse = t

/-- The rest of a segment that keeps its classes does so too. -/
theorem KeepsClasses.tail {t : Token} {g : List Token} (h : KeepsClasses (t :: g)) :
    KeepsClasses g :=
  fun u hu => h u (List.mem_cons_of_mem t hu)

/-- What a segment matches depends on the rest after its first unit only through what that
matches. -/
theorem SegmentMatches.mono {g g' : List Token}
    (h : ∀ start s, SegmentMatches start g s → SegmentMatches start g' s) {t : Token} {start : Bool}
    {s : List Char} (hs : SegmentMatches start (t :: g) s) : SegmentMatches start (t :: g') s := by
  cases hs with
  | char hs => exact .char (h _ _ hs)
  | anyChar hd hs => exact .anyChar hd (h _ _ hs)
  | bracket hd hb hs => exact .bracket hd hb (h _ _ hs)
  | anySequence hd hs => exact .anySequence hd (h _ _ hs)

/-- Runs of stars match what one star matches. -/
theorem segmentMatches_squeeze_iff {g : List Token} (h : KeepsClasses g)
    (start : Bool) (s : List Char) :
    SegmentMatches start (squeeze g) s ↔ SegmentMatches start g s := by
  fun_induction squeeze g generalizing start s with
  | case1 g ih => rw [ih h.tail, segmentMatches_star_star_iff]
  | case2 t g hg ih =>
    rw [h t List.mem_cons_self]
    exact ⟨.mono fun start s => (ih h.tail start s).1, .mono fun start s => (ih h.tail start s).2⟩
  | case3 => rfl

/-- Segments match as others that stand for the same. -/
theorem segmentsMatch_map_iff {f : List Token → List Token} {gs : List (List Token)}
    (hany : ∀ g ∈ gs, isAnySegments (f g) = isAnySegments g)
    (hone : ∀ g ∈ gs, isAnySegments g = false → ∀ s,
      SegmentMatches true (f g) s ↔ SegmentMatches true g s)
    {ss : List (List Char)} : SegmentsMatch (gs.map f) ss ↔ SegmentsMatch gs ss := by
  induction gs generalizing ss with
  | nil => rfl
  | cons g gs ih =>
    have hg := hany g List.mem_cons_self
    have ih := @ih (fun g' hg' => hany g' (List.mem_cons_of_mem g hg'))
      (fun g' hg' => hone g' (List.mem_cons_of_mem g hg'))
    rw [List.map_cons]
    cases h : isAnySegments g with
    | true =>
      rw [segmentsMatch_any_iff h, segmentsMatch_any_iff (hg.trans h)]
      simp only [ih, List.map_eq_nil_iff]
    | false =>
      rw [segmentsMatch_one_iff h, segmentsMatch_one_iff (hg.trans h)]
      simp only [ih, hone g List.mem_cons_self h]

/-- Collapsed segments match as they did before. -/
theorem segmentsMatch_collapseUnits_iff {gs : List (List Token)} (h : ∀ g ∈ gs, KeepsClasses g)
    {ss : List (List Char)} : SegmentsMatch (gs.map collapseUnits) ss ↔ SegmentsMatch gs ss := by
  refine segmentsMatch_map_iff (fun g _ => isAnySegments_collapseUnits g) fun g hg hany s => ?_
  rw [collapseUnits, if_neg (by simp [hany]), segmentMatches_squeeze_iff (h g hg)]

/-! ## Classes without two stars in a row -/

/-- A text without two stars in a row has none to shorten. -/
theorem singleStars_eq_self {s : List Char} (h : ¬ ['*', '*'] <:+: s) : singleStars s = s := by
  fun_induction singleStars s with
  | case1 r ih => exact absurd ⟨[], r, rfl⟩ h
  | case2 c r hc ih => rw [ih fun hr => h (List.IsInfix.trans hr ⟨[c], [], by simp⟩)]
  | case3 => rfl

/-- A segment without two stars in a row has none to collapse. -/
theorem collapseSegment_eq_self {s : List Char} (h : ¬ ['*', '*'] <:+: s) :
    collapseSegment s = s := by
  unfold collapseSegment
  split
  · next hall =>
    refine absurd ?_ h
    match s, hall with
    | a :: b :: r, hall =>
      obtain ⟨rfl, rfl, -⟩ : a = '*' ∧ b = '*' ∧ _ := by simpa using hall
      exact ⟨[], r, rfl⟩
  · exact singleStars_eq_self h

/-- A rest without two stars in a row has none to collapse. -/
theorem collapseRest_eq_self {s : List Char} (h : ¬ ['*', '*'] <:+: s) : collapseRest s = s := by
  obtain ⟨p, ps, hp⟩ := exists_pieces_eq_cons '/' s
  have hpiece : ∀ q ∈ p :: ps, ¬ ['*', '*'] <:+: q := fun q hq hstars =>
    h (hstars.trans (isInfix_of_mem_pieces (hp ▸ hq)))
  have hmap : ps.map collapseSegment = ps := by
    refine (List.map_congr_left fun q hq => ?_).trans (List.map_id ps)
    exact collapseSegment_eq_self (hpiece q (List.mem_cons_of_mem p hq))
  unfold collapseRest
  simp only [hp]
  rw [hmap, singleStars_eq_self (hpiece p List.mem_cons_self), ← hp, joinPieces_pieces]

/-- Members of a class stay as they are if there are no two stars in a row among them. -/
theorem Bracket.collapse_eq_self {b : Bracket} (h : ¬ ['*', '*'] <:+: b.members) :
    b.collapse = b := by
  -- The bracket that closes the class makes no two stars in a row either.
  have hclosed : ¬ ['*', '*'] <:+: b.members ++ [']'] := by
    rw [List.infix_concat_iff, List.suffix_concat_iff]
    rintro ((hnil | ⟨front, hfront, -⟩) | hmembers)
    · cases hnil
    · have hlast := congrArg List.getLast? hfront
      simp at hlast
    · exact h hmembers
  rw [Bracket.collapse, collapseRest_eq_self hclosed, List.dropLast_concat]

/-- The segments of a text keep their classes if none of these has two stars in a row. -/
theorem keepsClasses_of_segments {s : List Char}
    (h : ∀ b, .bracket b ∈ units s → ¬ ['*', '*'] <:+: b.members) {g : List Token}
    (hg : g ∈ segments s) : KeepsClasses g := by
  intro t ht
  cases t with
  | bracket b => rw [Token.collapse, Bracket.collapse_eq_self (h b (mem_of_mem_pieces hg ht))]
  | _ => rfl

/-! ## Patterns without braces -/

/-- Where no segment is empty, what a spelling covers as a directory is what its segments match. -/
theorem Alternative.accepts_iff_of_nonempty {w : List Char} {alt : Alternative}
    (h : Alternative.ofSpelling? w = .ok alt) (hne : ∀ g ∈ segments (collapseStars w), g ≠ [])
    (text : List Char) :
    alt.accepts text = true ↔ SegmentsMatch (segments (collapseStars w)) (pieces '/' text) := by
  rw [Alternative.accepts_iff h, trim_eq_self hne, or_iff_left_of_imp]
  rintro ⟨dir, hdir, hbelow⟩
  obtain ⟨n, below, hsegments, htext, hbelow, hhidden⟩ := exists_of_isBelow hdir hbelow
  rw [(Alternative.ofSpelling?_eq_ok_iff.1 h).2] at hsegments
  -- Slashes right before the stars would make empty segments.
  obtain rfl : n = 0 := by
    by_contra hn
    exact hne [] (by rw [hsegments]; simp [hn]) rfl
  rw [hsegments, htext]
  exact segmentsMatch_literal_append _ ((segmentsMatch_singleton_any_iff rfl).2 ⟨hbelow, hhidden⟩)

/-- A segment that is not empty stays so when it is collapsed. -/
theorem collapseUnits_ne_nil {g : List Token} (h : g ≠ []) : collapseUnits g ≠ [] := by
  intro hnil
  have hany := isAnySegments_collapseUnits g
  rw [hnil, isAnySegments_nil] at hany
  rw [collapseUnits, if_neg (by simp [← hany])] at hnil
  have hhead := head?_squeeze g
  rw [hnil, List.head?_nil, eq_comm, Option.map_eq_none_iff, List.head?_eq_none_iff] at hhead
  exact h hhead

/-- **The meaning of a pattern.** A pattern without braces, without empty segments and without
two stars in a row in a class accepts a text exactly if its segments match those of the text in
order. -/
theorem accepts_iff_segmentsMatch {text : String} {p : Pattern} (h : Pattern.ofString? text = .ok p)
    (hbrace : '\x7b' ∉ text.toList) (hne : ∀ g ∈ segments text.toList, g ≠ [])
    (hstars : ∀ b, .bracket b ∈ units text.toList → ¬ ['*', '*'] <:+: b.members) (s : String) :
    p.accepts s = true ↔ SegmentsMatch (segments text.toList) (pieces '/' s.toList) := by
  have hspellings := spellings_of_notMem hbrace
  have hcollapse := segments_collapseStars text.toList
  have hne' : ∀ g ∈ segments (collapseStars text.toList), g ≠ [] := by
    rw [hcollapse]
    intro g' hg'
    obtain ⟨g, hg, rfl⟩ := List.mem_map.1 hg'
    exact collapseUnits_ne_nil (hne g hg)
  obtain ⟨alt, halt⟩ := (exists_ofString?_eq_ok_iff.1 ⟨p, h⟩).2 text.toList (by simp [hspellings])
  calc p.accepts s = true ↔ alt.accepts s.toList = true := by
        rw [accepts_iff_exists_spelling h, hspellings]
        simp [halt]
    _ ↔ SegmentsMatch (segments (collapseStars text.toList)) (pieces '/' s.toList) :=
        Alternative.accepts_iff_of_nonempty halt hne' s.toList
    _ ↔ SegmentsMatch (segments text.toList) (pieces '/' s.toList) := by
        rw [hcollapse,
          segmentsMatch_collapseUnits_iff fun g hg => keepsClasses_of_segments hstars hg]

/-- What `**` and a class mean below a directory, and a file there. -/
theorem accepts_iff_segmentsMatch_source : ∃ p, Pattern.ofString? "src/**/[a*]*.ts" = .ok p ∧
    (∀ s : String, (p.accepts s = true ↔
      SegmentsMatch (segments "src/**/[a*]*.ts".toList) (pieces '/' s.toList))) ∧
    p.accepts "src/lib/ab.ts" = true := by
  have hok : ∃ p, Pattern.ofString? "src/**/[a*]*.ts" = .ok p := by
    rw [exists_eq_ok_iff]
    decide +kernel
  have hunits : units "src/**/[a*]*.ts".toList = literal "src/".toList ++
      [.anySequence, .anySequence,
      .char '/', .bracket ⟨false, ['a', '*']⟩, .anySequence, .char '.', .char 't', .char 's'] := by
    decide +kernel
  obtain ⟨p, hp⟩ := hok
  have hmeaning (s : String) : p.accepts s = true ↔
      SegmentsMatch (segments "src/**/[a*]*.ts".toList) (pieces '/' s.toList) := by
    refine accepts_iff_segmentsMatch hp (by decide) (by decide +kernel) (fun b hb => ?_) s
    rw [hunits] at hb
    obtain rfl : b = ⟨false, ['a', '*']⟩ := by simpa [literal] using hb
    decide
  refine ⟨p, hp, hmeaning, (hmeaning _).2 ?_⟩
  have hsegments : segments "src/**/[a*]*.ts".toList = [literal "src".toList, anySegment,
      .bracket ⟨false, ['a', '*']⟩ :: .anySequence :: literal ".ts".toList] := by decide +kernel
  have hfile :
      SegmentMatches true (.bracket ⟨false, ['a', '*']⟩ :: .anySequence :: literal ".ts".toList)
      ('a' :: ("b".toList ++ ".ts".toList)) :=
    .bracket (by simp) (by decide) (.anySequence (by simp) (segmentMatches_literal _ _))
  rw [hsegments]
  exact .one (isAnySegments_literal _) (segmentMatches_literal _ _)
    (@SegmentsMatch.any _ _ ["lib".toList] _ rfl
      (by simp [isHidden]) (by simp) (.one rfl hfile .nil))

end ImportLint.Glob

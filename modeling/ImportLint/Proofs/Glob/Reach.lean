import ImportLint.Proofs.Glob.Below
import Mathlib.Algebra.Order.BigOperators.Group.List
import Mathlib.Algebra.Order.Group.Nat

/-!
# Patterns below a directory

What a spelling that accepts a directory with a slash after it accepts below the directory. If it
ends in stars for any segments, it reaches down: it accepts everything below in which no segment is
hidden. If it does not, it has a stem for the directory and takes what follows the slash with
nothing, or with a single star, which stands for one segment. So without stars for any segments a
pattern never accepts everything below a directory.
-/

namespace ImportLint.Glob

variable {gs stem tail : List (List Token)} {g last : List Token} {ss ds : List (List Char)}

/-! ## Segments that reach down -/

/-- Segments **reach down** if they end in stars for any segments; a slash may follow, and a segment
of one star. -/
def ReachesDown (gs : List (List Token)) : Prop :=
  ∃ stem g, isAnySegments g = true ∧
    (gs = stem ++ [g] ∨ gs = stem ++ [g, []] ∨ gs = stem ++ [g, [.anySequence]])

/-- The last of some segments match an end of the text, which may be replaced by anything else that
they match. -/
theorem SegmentsMatch.exists_append (h : SegmentsMatch (stem ++ tail) ss) (htail : tail ≠ []) :
    ∃ front back, ss = front ++ back ∧ SegmentsMatch tail back ∧
      ∀ back', SegmentsMatch tail back' → SegmentsMatch (stem ++ tail) (front ++ back') := by
  induction stem generalizing ss with
  | nil => exact ⟨[], ss, rfl, h, fun _ => id⟩
  | cons g stem ih =>
    have hne : stem ++ tail ≠ [] := by simp [htail]
    cases hany : isAnySegments g with
    | false =>
      obtain ⟨s, ss', rfl, hs, hss⟩ := (segmentsMatch_one_iff hany).1 h
      obtain ⟨front, back, rfl, hback, hreplace⟩ := ih hss
      exact ⟨s :: front, back, rfl, hback, fun back' hback' => .one hany hs (hreplace back' hback')⟩
    | true =>
      obtain ⟨skipped, ss', rfl, hskipped, -, hss⟩ := (segmentsMatch_any_iff hany).1 h
      obtain ⟨front, back, rfl, hback, hreplace⟩ := ih hss
      refine ⟨skipped ++ front, back, (List.append_assoc ..).symm, hback, fun back' hback' => ?_⟩
      rw [List.append_assoc]
      exact .any hany hskipped (fun hnil => absurd hnil hne) (hreplace back' hback')

/-- A single star matches the segments that are not hidden. -/
theorem segmentMatches_star_singleton_iff {s : List Char} :
    SegmentMatches true [.anySequence] s ↔ isHidden s = false := by
  simp [segmentMatches_star_iff]

/-- One star after stars for any segments changes nothing. -/
theorem segmentsMatch_any_star_iff (hg : isAnySegments g = true) :
    SegmentsMatch [g, [.anySequence]] ss ↔ ss ≠ [] ∧ ∀ s ∈ ss, isHidden s = false := by
  rw [segmentsMatch_any_iff hg]
  constructor
  · rintro ⟨skipped, ss', rfl, hskipped, -, h⟩
    obtain ⟨s, ss'', rfl, hs, hnil⟩ := (segmentsMatch_one_iff rfl).1 h
    obtain rfl := segmentsMatch_nil_iff.1 hnil
    refine ⟨by simp, fun t ht => ?_⟩
    rcases List.mem_append.1 ht with ht | ht
    · exact hskipped t ht
    · rw [List.mem_singleton.1 ht]
      exact segmentMatches_star_singleton_iff.1 hs
  · rintro ⟨hne, hvisible⟩
    obtain ⟨front, s, rfl⟩ := (List.eq_nil_or_concat' ss).resolve_left hne
    rw [List.forall_mem_append, List.forall_mem_singleton] at hvisible
    exact ⟨front, [s], rfl, hvisible.1,
      by simp, .one rfl (segmentMatches_star_singleton_iff.2 hvisible.2) .nil⟩

/-- What reaches down ends in segments that match any that are not hidden. -/
theorem ReachesDown.exists_trim (h : ReachesDown gs) :
    ∃ stem tail, trim gs = stem ++ tail ∧ tail ≠ [] ∧
      ∀ ss, SegmentsMatch tail ss ↔ ss ≠ [] ∧ ∀ s ∈ ss, isHidden s = false := by
  obtain ⟨stem, g, hg, rfl | rfl | rfl⟩ := h
  · have hne : [g] ≠ [[]] := by
      rintro ⟨⟩
      cases hg
    refine ⟨stem, [g], ?_, by simp, fun ss => segmentsMatch_singleton_any_iff hg⟩
    rw [trim_append (by simp) hne, trim_cons_of_ne (by simp)]
    rfl
  · refine ⟨stem, [g], ?_, by simp, fun ss => segmentsMatch_singleton_any_iff hg⟩
    rw [trim_append (by simp) (by simp), trim_any_nil hg]
  · refine ⟨stem, [g, [.anySequence]], ?_, by simp, fun ss => segmentsMatch_any_star_iff hg⟩
    rw [trim_append (by simp) (by simp), trim_cons_of_ne (by simp), trim_cons_of_ne (by simp)]
    rfl

/-- **Reaching down**: instead of nothing after the last slash there may be anything that is not
hidden. -/
theorem ReachesDown.segmentsMatch (h : ReachesDown gs) (hds : SegmentsMatch (trim gs) (ds ++ [[]]))
    (hne : ss ≠ []) (hss : ∀ s ∈ ss, isHidden s = false) : SegmentsMatch (trim gs) (ds ++ ss) := by
  obtain ⟨stem, tail, htrim, htail, hmatch⟩ := h.exists_trim
  rw [htrim] at hds ⊢
  obtain ⟨front, back, hsplit, hback, hreplace⟩ := hds.exists_append htail
  obtain ⟨hbackne, hvisible⟩ := (hmatch back).1 hback
  -- What matches the end of the directory goes on to match what is below.
  obtain ⟨between, s, rfl⟩ := (List.eq_nil_or_concat' back).resolve_left hbackne
  rw [← List.append_assoc] at hsplit
  obtain ⟨rfl, -⟩ := List.append_inj' hsplit rfl
  rw [List.append_assoc]
  refine hreplace _ ((hmatch _).2 ⟨by simp [hne], ?_⟩)
  rw [List.forall_mem_append] at hvisible ⊢
  exact ⟨hvisible.1, hss⟩

/-! ## Segments that do not -/

/-- Segments match part by part, if the first of the parts does not end in stars for any
segments. -/
theorem segmentsMatch_append_iff (hstem : ∀ g ∈ stem.getLast?, isAnySegments g = false) :
    SegmentsMatch (stem ++ tail) ss ↔
      ∃ front back, ss = front ++ back ∧ SegmentsMatch stem front ∧ SegmentsMatch tail back := by
  constructor
  · intro h
    -- A recursive segment is not the last one in front, so it may skip nothing at all.
    induction stem generalizing ss with
    | nil => exact ⟨[], ss, rfl, .nil, h⟩
    | cons g stem ih =>
      have hlater : ∀ g' ∈ stem.getLast?, isAnySegments g' = false := by
        intro g' hg'
        exact hstem g' (by rw [List.getLast?_cons, hg']; rfl)
      cases hany : isAnySegments g with
      | false =>
        obtain ⟨s, ss', rfl, hs, hss⟩ := (segmentsMatch_one_iff hany).1 h
        obtain ⟨front, back, rfl, hfront, hback⟩ := ih hlater hss
        exact ⟨s :: front, back, rfl, .one hany hs hfront, hback⟩
      | true =>
        have hne : stem ≠ [] := by
          rintro rfl
          exact absurd (hstem g rfl) (by simp [hany])
        obtain ⟨skipped, ss', rfl, hskipped, -, hss⟩ := (segmentsMatch_any_iff hany).1 h
        obtain ⟨front, back, rfl, hfront, hback⟩ := ih hlater hss
        exact ⟨skipped ++ front, back, (List.append_assoc ..).symm,
          .any hany hskipped (fun hnil => absurd hnil hne) hfront, hback⟩
  · rintro ⟨front, back, rfl, hfront, hback⟩
    induction hfront with
    | nil => exact hback
    | one hg hs _ ih =>
      exact .one hg hs (ih fun g' hg' => hstem g' (by rw [List.getLast?_cons, hg']; rfl))
    | any hg hskipped hne _ ih =>
      rw [List.append_assoc]
      exact .any hg hskipped (fun hnil => hne (List.append_eq_nil_iff.1 hnil).1)
        (ih fun g' hg' => hstem g' (by rw [List.getLast?_cons, hg']; rfl))

/-- A single segment matches a single segment. -/
theorem segmentsMatch_singleton_iff (hlast : isAnySegments last = false) :
    SegmentsMatch [last] ss ↔ ∃ s, ss = [s] ∧ SegmentMatches true last s := by
  rw [segmentsMatch_one_iff hlast]
  simp

/-- A last segment is matched apart, if what is before it does not end in stars for any segments. -/
theorem segmentsMatch_concat_iff (hstem : ∀ g ∈ stem.getLast?, isAnySegments g = false)
    (hlast : isAnySegments last = false) {front : List (List Char)} {s : List Char} :
    SegmentsMatch (stem ++ [last]) (front ++ [s]) ↔
      SegmentsMatch stem front ∧ SegmentMatches true last s := by
  rw [segmentsMatch_append_iff hstem]
  constructor
  · rintro ⟨front', back, hsplit, hfront, hback⟩
    obtain ⟨s', rfl, hs⟩ := (segmentsMatch_singleton_iff hlast).1 hback
    obtain ⟨rfl, hcons⟩ := List.append_inj' hsplit rfl
    obtain rfl := (List.cons.inj hcons).1
    exact ⟨hfront, hs⟩
  · rintro ⟨hfront, hs⟩
    exact ⟨front, [s], rfl, hfront, (segmentsMatch_singleton_iff hlast).2 ⟨s, rfl, hs⟩⟩

/-- What matches nothing at the end of a text is empty or a single star. -/
theorem SegmentsMatch.eq_star_of_concat (h : SegmentsMatch (stem ++ [last]) (ds ++ [[]]))
    (hlast : isAnySegments last = false) : last = [] ∨ last = [.anySequence] := by
  obtain ⟨front, back, hsplit, hback, -⟩ := h.exists_append (by simp)
  obtain ⟨s, rfl, hs⟩ := (segmentsMatch_singleton_iff hlast).1 hback
  obtain ⟨-, hnil⟩ := List.append_inj' hsplit rfl
  obtain rfl := (List.cons.inj hnil).1
  exact hs.eq_star hlast

section

variable (hreach : ¬ ReachesDown gs)

include hreach

/-- There is nothing to trim in segments that do not reach down. -/
theorem trim_of_not_reachesDown : trim gs = gs := by
  rcases List.eq_nil_or_concat' gs with rfl | ⟨stem, last, rfl⟩
  · rfl
  by_cases hlast : last = []
  · subst hlast
    rcases List.eq_nil_or_concat' stem with rfl | ⟨stem, g, rfl⟩
    · rfl
    · have hg : isAnySegments g = false :=
        Bool.eq_false_iff.2 fun hany => hreach ⟨stem, g, hany, .inr (.inl (by simp))⟩
      rw [List.append_assoc, trim_append (by simp) (by simp), List.singleton_append,
        trim_cons_of_not hg]
      rfl
  · rw [trim_append (by simp) (by simpa using hlast), trim_cons_of_ne (by simp)]
    rfl

/-- **Not reaching down**: nothing after the last slash is matched by nothing or by one star, and
the stem before it matches the directory; what is below is matched in the same way. -/
theorem exists_of_not_reachesDown (hds : SegmentsMatch (trim gs) (ds ++ [[]])) :
    ∃ stem last, gs = stem ++ [last] ∧ (last = [] ∨ last = [.anySequence]) ∧ SegmentsMatch stem ds ∧
      ∀ front s, SegmentsMatch (trim gs) (front ++ [s]) ↔
        SegmentsMatch stem front ∧ SegmentMatches true last s := by
  rw [trim_of_not_reachesDown hreach] at hds ⊢
  obtain ⟨stem, last, rfl⟩ := (List.eq_nil_or_concat' gs).resolve_left (by
    rintro rfl
    simp at hds)
  have hany : isAnySegments last = false := Bool.eq_false_iff.2 fun hany =>
    hreach ⟨stem, last, hany, .inl rfl⟩
  have hlast := hds.eq_star_of_concat hany
  -- As the last segment matches nothing, the one before it is not made of stars for any segments.
  have hstem : ∀ g ∈ stem.getLast?, isAnySegments g = false := by
    intro g hg
    obtain ⟨stem, rfl⟩ := List.getLast?_eq_some_iff.1 hg
    refine Bool.eq_false_iff.2 fun hany => hreach ⟨stem, g, hany, .inr ?_⟩
    rcases hlast with rfl | rfl
    · exact .inl (by simp)
    · exact .inr (by simp)
  exact ⟨stem, last, rfl, hlast, ((segmentsMatch_concat_iff hstem hany).1 hds).1,
    fun front s => segmentsMatch_concat_iff hstem hany⟩

end

/-- Without stars for any segments each segment matches one. -/
theorem SegmentsMatch.length_eq (h : SegmentsMatch gs ss)
    (hone : ∀ g ∈ gs, isAnySegments g = false) : ss.length = gs.length := by
  induction h with
  | nil => rfl
  | one _ _ _ ih =>
    rw [List.length_cons, List.length_cons, ih fun g hg => hone g (List.mem_cons_of_mem _ hg)]
  | any hg => exact absurd (hone _ List.mem_cons_self) (by simp [hg])

/-! ## Spellings -/

/-- Whether a path below a directory is **visible**: no segment of it is empty or hidden. -/
def IsVisible (path : List Char) : Prop := ∀ s ∈ pieces '/' path, s ≠ [] ∧ isHidden s = false

/-- Whether a path is visible can be decided. -/
instance (path : List Char) : Decidable (IsVisible path) := inferInstanceAs (Decidable (∀ s ∈ _, _))

namespace Alternative

variable {w dir : List Char} {alt : Alternative}

/-- A spelling that covers a directory reaches down. -/
theorem reachesDown_of_directory? (h : alt.directory? = some dir) :
    ReachesDown (segments alt.spelling) := by
  obtain ⟨⟨n, hn⟩, hplain⟩ := spelling_of_directory? h
  refine ⟨(pieces '/' dir).map literal ++ List.replicate n [], anySegment, rfl, .inl ?_⟩
  rw [hn, segments_plain_slash hplain, segments_slashes_stars, List.append_assoc]

section

variable (halt : ofSpelling? w = .ok alt)

include halt

/-- An alternative accepts what its trimmed segments match, and what is below its directory if it
has one. -/
theorem accepts_iff_trim (text : List Char) : alt.accepts text = true ↔
    SegmentsMatch (trim (segments alt.spelling)) (pieces '/' text) ∨
      ∃ dir, alt.directory? = some dir ∧ isBelow dir text = true := by
  rw [(ofSpelling?_eq_ok_iff.1 halt).2]
  exact accepts_iff halt text

/-- A spelling that reaches down and takes a directory with a slash takes what is below, unless it
is hidden. -/
theorem accepts_below (hreach : ReachesDown (segments alt.spelling))
    (hdir : alt.accepts (dir ++ ['/']) = true) {below : List Char}
    (hbelow : ∀ s ∈ pieces '/' below, isHidden s = false) :
    alt.accepts (dir ++ '/' :: below) = true := by
  rw [accepts_iff_trim halt, pieces_append_cons] at hdir ⊢
  rcases hdir with hmatch | ⟨covered, hcovered, hdir⟩
  · exact .inl (hreach.segmentsMatch hmatch (pieces_ne_nil '/' below) hbelow)
  · obtain ⟨rest, hpieces, hne, hrest⟩ := isBelow_iff_pieces.1 hdir
    -- What is below the directory that is covered goes on below.
    obtain ⟨between, s, rfl⟩ := (List.eq_nil_or_concat' rest).resolve_left hne
    rw [pieces_append_cons, ← List.append_assoc] at hpieces
    obtain ⟨hpieces, -⟩ := List.append_inj' hpieces rfl
    rw [List.forall_mem_append] at hrest
    refine .inr ⟨covered, hcovered,
      isBelow_iff_pieces.2 ⟨between ++ pieces '/' below, ?_, by simp, ?_⟩⟩
    · rw [pieces_append_cons, hpieces, List.append_assoc]
    · exact List.forall_mem_append.2 ⟨hrest.1, hbelow⟩

/-- A spelling that does not reach down and takes a directory with a slash takes nothing of what is
below if it ends in the slash. If it ends in a single star, it takes what its stem matches without
the last segment. -/
theorem exists_accepts_below_iff (hreach : ¬ ReachesDown (segments alt.spelling))
    (hdir : alt.accepts (dir ++ ['/']) = true) :
    ∃ stem last, segments alt.spelling = stem ++ [last] ∧ (last = [] ∨ last = [.anySequence]) ∧
      SegmentsMatch stem (pieces '/' dir) ∧ ∀ below, IsVisible below →
        (alt.accepts (dir ++ '/' :: below) = true ↔
        last = [.anySequence] ∧
          SegmentsMatch stem (pieces '/' dir ++ (pieces '/' below).dropLast)) := by
  have hnone : ¬ ∃ dir', alt.directory? = some dir' :=
    fun ⟨_, h⟩ => hreach (reachesDown_of_directory? h)
  have haccepts (text : List Char) : alt.accepts text = true ↔
      SegmentsMatch (trim (segments alt.spelling)) (pieces '/' text) := by
    rw [accepts_iff_trim halt, or_iff_left fun ⟨dir', h, _⟩ => hnone ⟨dir', h⟩]
  rw [haccepts, pieces_append_cons, pieces_nil] at hdir
  obtain ⟨stem, last, hsegments, hlast, hstem, hmatch⟩ := exists_of_not_reachesDown hreach hdir
  refine ⟨stem, last, hsegments, hlast, hstem, fun below hbelow => ?_⟩
  obtain ⟨front, s, hpieces⟩ :=
    (List.eq_nil_or_concat' (pieces '/' below)).resolve_left (pieces_ne_nil '/' below)
  obtain ⟨hne, hvisible⟩ := hbelow s (hpieces ▸ by simp)
  rw [haccepts, pieces_append_cons, hpieces, ← List.append_assoc, hmatch,
    List.dropLast_concat, and_comm]
  refine and_congr_left fun _ => ?_
  -- The last segment of what is below is visible: an empty one does not match it, a star does.
  rcases hlast with rfl | rfl
  · simp [hne]
  · simp [segmentMatches_star_singleton_iff, hvisible]

/-- A spelling without stars for any segments takes texts of as many segments as it has. -/
theorem length_of_accepts (hone : ∀ g ∈ segments alt.spelling, isAnySegments g = false)
    {text : List Char} (h : alt.accepts text = true) :
    (pieces '/' text).length = (segments alt.spelling).length := by
  have hreach : ¬ ReachesDown (segments alt.spelling) := by
    rintro ⟨stem, g, hg, hsegments⟩
    have hmem : g ∈ segments alt.spelling := by
      rcases hsegments with h | h | h <;> simp [h]
    exact absurd (hone g hmem) (by simp [hg])
  rcases (accepts_iff_trim halt text).1 h with hmatch | ⟨dir, hdir, -⟩
  · rw [trim_of_not_reachesDown hreach] at hmatch
    exact hmatch.length_eq hone
  · exact absurd (reachesDown_of_directory? hdir) hreach

end

end Alternative

/-- An alternative of a pattern is made of a spelling. -/
theorem exists_ofSpelling?_of_mem {text : String} {p : Pattern}
    (h : Pattern.ofString? text = .ok p) {alt : Alternative} (halt : alt ∈ p.alternatives) :
    ∃ w, Alternative.ofSpelling? w = .ok alt := by
  obtain ⟨w, -, hw⟩ := (mem_iff_of_mapM_eq_ok (alternatives_of_ofString? h) alt).1 halt
  exact ⟨w, hw⟩

/-- **Without stars for any segments** a pattern does not accept all that is visible below a
directory. -/
theorem Pattern.exists_not_accepts_below {text : String} {p : Pattern} (h : ofString? text = .ok p)
    (hone : ∀ alt ∈ p.alternatives, ∀ g ∈ segments alt.spelling, isAnySegments g = false)
    (dir : List Char) :
    ∃ below, IsVisible below ∧ p.accepts (.ofList (dir ++ '/' :: below)) = false := by
  -- More segments than any of the spellings has.
  let n := (p.alternatives.map fun alt => (segments alt.spelling).length).sum
  have hpieces : pieces '/' (joinPieces '/' (List.replicate (n + 1) ['a'])) =
      List.replicate (n + 1) ['a'] := by
    refine pieces_joinPieces (by simp) fun s hs => ?_
    rw [List.eq_of_mem_replicate hs]
    decide
  refine ⟨joinPieces '/' (List.replicate (n + 1) ['a']), ?_, ?_⟩
  · intro s hs
    rw [hpieces] at hs
    rw [List.eq_of_mem_replicate hs]
    decide
  · rw [Bool.eq_false_iff]
    intro haccepts
    obtain ⟨alt, hmem, halt⟩ := List.any_eq_true.1 haccepts
    obtain ⟨w, hw⟩ := exists_ofSpelling?_of_mem h hmem
    have hlength := Alternative.length_of_accepts hw (hone alt hmem) halt
    have hle : (segments alt.spelling).length ≤ n := List.le_sum_of_mem (List.mem_map_of_mem hmem)
    rw [String.toList_ofList, pieces_append_cons, hpieces, List.length_append,
      List.length_replicate] at hlength
    omega

end ImportLint.Glob

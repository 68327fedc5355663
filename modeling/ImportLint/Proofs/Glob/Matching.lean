import ImportLint.Proofs.Glob.Assembly
import ImportLint.Proofs.Glob.Search

/-!
# Tokens match segment by segment

The tokens put together from segments match a text exactly if the segments match those of the text
in order. One spelling needs care: after `**/` at its very end there is one segment more, the empty
one, for which no token is left; `trim` takes it away.
-/

namespace ImportLint.Glob

/-- Segments without the empty one that a slash after `**` leaves at the end. -/
def trim : List (List Token) → List (List Token)
  | [] => []
  | g :: gs => if isAnySegments g && gs == [[]] then [g] else g :: trim gs

/-- A segment that is not recursive is kept by trimming. -/
theorem trim_cons_of_not {g : List Token} (h : isAnySegments g = false) (gs : List (List Token)) :
    trim (g :: gs) = g :: trim gs := by
  simp [trim, h]

/-- A segment is kept by trimming unless only an empty one follows it. -/
theorem trim_cons_of_ne {gs : List (List Token)} (h : gs ≠ [[]]) (g : List Token) :
    trim (g :: gs) = g :: trim gs := by
  simp [trim, h]

/-- An empty segment behind a recursive one is dropped. -/
theorem trim_any_nil {g : List Token} (h : isAnySegments g = true) : trim [g, []] = [g] := by
  simp [trim, h]

/-- Trimming leaves a segment where there is one. -/
theorem trim_ne_nil {gs : List (List Token)} (h : gs ≠ []) : trim gs ≠ [] := by
  cases gs with
  | nil => exact absurd rfl h
  | cons g gs =>
    unfold trim
    split <;> simp

/-- Without empty segments there is nothing to trim. -/
theorem trim_eq_self {gs : List (List Token)} (h : ∀ g ∈ gs, g ≠ []) : trim gs = gs := by
  induction gs with
  | nil => rfl
  | cons g gs ih =>
    have hgs : gs ≠ [[]] := by
      rintro rfl
      exact h [] (by simp) rfl
    rw [trim_cons_of_ne hgs, ih fun g' hg' => h g' (List.mem_cons_of_mem g hg')]

/-! ## Within a segment -/

/-- What a sequence within a segment takes: no slash, and no leading dot. -/
theorem longer_true_iff {start start' : Bool} {s s' : List Char} :
    (start' = start ∧ s' = s) ∨ Longer true start s start' s' ↔
      ∃ u, s = u ++ s' ∧ '/' ∉ u ∧ (start = true → isHidden u = false) ∧
        start' = (start && u.isEmpty) := by
  constructor
  · rintro (⟨rfl, rfl⟩ | h)
    · exact ⟨[], by simp [isHidden]⟩
    · induction h with
      | finish => exact ⟨[], by simp [isHidden]⟩
      | @stop start c s hd hc =>
        have hc' : c ≠ '/' := by simpa using hc
        exact ⟨[c], rfl, by simpa [eq_comm] using hc', by simpa [isHidden] using hd, by simp [hc']⟩
      | @more start c s start' s' hd hc _ ih =>
        have hc' : c ≠ '/' := hc rfl
        obtain ⟨u, rfl, hu, -, rfl⟩ := ih
        refine ⟨c :: u, rfl, ?_, by simpa [isHidden] using hd, by simp [hc']⟩
        simpa [hu, eq_comm] using hc'
  · rintro ⟨u, rfl, hu, hd, rfl⟩
    -- By induction on what is taken. Behind its first character the segment has been started.
    induction u generalizing start with
    | nil => simp
    | cons c u ih =>
      right
      have hc : c ≠ '/' := fun h => hu (by simp [h])
      have hcb : (c == '/') = false := by simpa using hc
      have hd' : start = true → c ≠ '.' := by simpa [isHidden] using hd
      have ih := @ih false (fun h => hu (List.mem_cons_of_mem c h)) (by simp)
      simp only [Bool.false_and, List.isEmpty_cons, Bool.and_false] at ih ⊢
      rcases ih with ⟨-, hs⟩ | h
      · have h : Longer true start (c :: s') (c == '/') s' := .stop hd' (by simp [hc])
        rw [hcb] at h
        rwa [List.cons_append, ← hs]
      · exact .more hd' (fun _ => hc) (hcb ▸ h)

/-- The units of a segment: no slash, and no `**`. -/
def IsSegment (g : List Token) : Prop := .char '/' ∉ g ∧ .anySegments ∉ g

/-- The rest of a segment is one. -/
theorem IsSegment.tail {u : Token} {g : List Token} (h : IsSegment (u :: g)) : IsSegment g :=
  ⟨fun hm => h.1 (List.mem_cons_of_mem u hm), fun hm => h.2 (List.mem_cons_of_mem u hm)⟩

/-- A unit that is no sequence takes one character, as a token does. -/
theorem segmentMatches_cons_iff {t : Token} (ht : t.within? = none) {start : Bool} {g : List Token}
    {c : Char} (hc : c ≠ '/') {s : List Char} :
    SegmentMatches start (t :: g) (c :: s) ↔
      t.admits start c = true ∧ SegmentMatches false g s := by
  have hb : (c == '/') = false := beq_false_of_ne hc
  -- One case for each token that stands for a character.
  constructor
  · intro h
    cases t with
    | char d =>
      cases h with
      | char h => exact ⟨by simp, h⟩
    | anyChar =>
      cases h with
      | anyChar hd h =>
        refine ⟨?_, h⟩
        cases start <;> simp_all
    | bracket b =>
      cases h with
      | bracket hd hb h =>
        refine ⟨?_, h⟩
        cases start <;> simp_all
    | anySequence | anySegments => simp [Token.within?] at ht
  · rintro ⟨ha, h⟩
    cases t with
    | char d =>
      obtain rfl : c = d := by simpa using ha
      exact .char h
    | anyChar =>
      refine .anyChar (fun hs => ?_) h
      simp_all
    | bracket b =>
      simp only [Token.admits_bracket, Bool.and_eq_true] at ha
      refine .bracket (fun hs => ?_) ha.2 h
      simp_all
    | anySequence | anySegments => simp [Token.within?] at ht

/-- A segment that starts with a token for one character does not match the empty text. -/
theorem not_segmentMatches_nil {t : Token} (ht : t.within? = none) {start : Bool} {g : List Token} :
    ¬ SegmentMatches start (t :: g) [] := by
  generalize hs : ([] : List Char) = s
  intro h
  cases h <;> simp_all [Token.within?]

/-- A star takes any part of a segment that does not start it with a dot. -/
theorem segmentMatches_star_iff {start : Bool} {g : List Token} {s : List Char} :
    SegmentMatches start (.anySequence :: g) s ↔
      ∃ u r, s = u ++ r ∧ (start = true → isHidden u = false) ∧
        SegmentMatches (start && u.isEmpty) g r := by
  constructor
  · intro h
    cases h with
    | anySequence hd h => exact ⟨_, _, rfl, hd, h⟩
  · rintro ⟨u, r, rfl, hd, h⟩
    exact .anySequence hd h

/-- Two texts together are empty if both are. -/
theorem isEmpty_append {α : Type} (u v : List α) : (u ++ v).isEmpty = (u.isEmpty && v.isEmpty) := by
  cases u <;> rfl

/-- A star takes a part of a segment, and the tokens after it match the rest. -/
theorem matches_star_iff {start : Bool} {ts : List Token} {s : List Char} :
    Matches start (.anySequence :: ts) s ↔ ∃ u r, s = u ++ r ∧ '/' ∉ u ∧
      (start = true → isHidden u = false) ∧ Matches (start && u.isEmpty) ts r := by
  rw [matches_sequence_iff rfl]
  constructor
  · rintro (hm | ⟨start', r, hl, hm⟩)
    · obtain ⟨u, hs, hu, hd, hstart⟩ := longer_true_iff.1 (.inl ⟨rfl, rfl⟩)
      exact ⟨u, s, hs, hu, hd, hstart ▸ hm⟩
    · obtain ⟨u, hs, hu, hd, hstart⟩ := longer_true_iff.1 (.inr hl)
      exact ⟨u, r, hs, hu, hd, hstart ▸ hm⟩
  · rintro ⟨u, r, hs, hu, hd, hm⟩
    rcases longer_true_iff.2 ⟨u, hs, hu, hd, rfl⟩ with ⟨he, rfl⟩ | hl
    · exact .inl (he ▸ hm)
    · exact .inr ⟨_, r, hl, hm⟩

/-- The units of a segment match a part of a text without slashes, and the tokens after them the
rest. -/
theorem matches_append_iff {g : List Token} (hg : IsSegment g) {start : Bool} {ts : List Token}
    {s : List Char} :
    Matches start (g ++ ts) s ↔
      ∃ u r, s = u ++ r ∧ '/' ∉ u ∧ SegmentMatches start g u ∧
        Matches (start && u.isEmpty) ts r := by
  induction g generalizing start s with
  | nil => simp
  | cons t g ih =>
    have ih := @ih hg.tail
    rw [List.cons_append]
    by_cases hw : t.within? = none
    · rw [matches_one_iff hw]
      constructor
      · rintro ⟨c, r, rfl, ha, hm⟩
        have hc : c ≠ '/' := by
          rintro rfl
          cases t <;> simp_all [IsSegment]
        rw [beq_false_of_ne hc, ih] at hm
        obtain ⟨u, r, rfl, hu, hs, hm⟩ := hm
        refine ⟨c :: u, r, rfl, ?_, (segmentMatches_cons_iff hw hc).2 ⟨ha, hs⟩, by simpa using hm⟩
        simpa [hu, eq_comm] using hc
      · rintro ⟨u, r, rfl, hu, hs, hm⟩
        cases u with
        | nil => exact absurd hs (not_segmentMatches_nil hw)
        | cons c u =>
          have hc : c ≠ '/' := fun h => hu (by simp [h])
          obtain ⟨ha, hs⟩ := (segmentMatches_cons_iff hw hc).1 hs
          refine ⟨c, u ++ r, rfl, ha, ?_⟩
          rw [beq_false_of_ne hc, ih]
          exact ⟨u, r, rfl, fun h => hu (List.mem_cons_of_mem c h), hs, by simpa using hm⟩
    · obtain rfl : t = .anySequence := by
        cases t <;> simp_all [Token.within?, IsSegment]
      -- What a star and the units after it take in one go is split where the star ends.
      rw [matches_star_iff]
      constructor
      · rintro ⟨u, r, rfl, hu, hd, hm⟩
        obtain ⟨v, r, rfl, hv, hs, hm⟩ := ih.1 hm
        refine ⟨u ++ v, r, by simp, by simp [hu, hv], .anySequence hd hs, ?_⟩
        rwa [isEmpty_append, ← Bool.and_assoc]
      · rintro ⟨w, r, rfl, hw', hs, hm⟩
        obtain ⟨u, v, rfl, hd, hs⟩ := segmentMatches_star_iff.1 hs
        simp only [List.mem_append, not_or] at hw'
        refine ⟨u, v ++ r, by simp, hw'.1, hd, ih.2 ⟨v, r, rfl, hw'.2, hs, ?_⟩⟩
        rwa [Bool.and_assoc, ← isEmpty_append]

/-- The units of a segment alone match a text of one segment. -/
theorem matches_segment_iff {g : List Token} (hg : IsSegment g) {s : List Char} :
    Matches true g s ↔ ∃ u, pieces '/' s = [u] ∧ SegmentMatches true g u := by
  have happend := @matches_append_iff g hg true [] s
  rw [List.append_nil] at happend
  rw [happend]
  constructor
  · rintro ⟨u, r, rfl, hu, hmg, hr⟩
    obtain rfl := matches_nil_iff.1 hr
    rw [List.append_nil]
    exact ⟨u, pieces_of_notMem hu, hmg⟩
  · rintro ⟨u, hs, hmg⟩
    obtain rfl : s = u := by rw [← joinPieces_pieces '/' s, hs, joinPieces_singleton]
    exact ⟨s, [], by simp, notMem_of_mem_pieces (hs ▸ List.mem_singleton_self s), hmg, .nil⟩

/-- The units of a segment and a slash match the first segment of a text, and what comes next the
others. -/
theorem matches_segment_slash_iff {g : List Token} (hg : IsSegment g)
    {ts : List Token} {s : List Char} :
    Matches true (g ++ .char '/' :: ts) s ↔ ∃ u ss, pieces '/' s = u :: ss ∧ ss ≠ [] ∧
      SegmentMatches true g u ∧ Matches true ts (joinPieces '/' ss) := by
  rw [matches_append_iff hg]
  constructor
  · rintro ⟨u, r, rfl, hu, hmg, hm⟩
    obtain ⟨c, r, rfl, ha, hm⟩ := (matches_one_iff rfl).1 hm
    obtain rfl : c = '/' := by simpa using ha
    refine ⟨u, pieces '/' r, ?_, by simp, hmg, ?_⟩
    · rw [pieces_append_cons, pieces_of_notMem hu]
      rfl
    · rw [joinPieces_pieces]
      exact hm
  · rintro ⟨u, ss, hs, hne, hmg, hm⟩
    have hjoin : s = u ++ '/' :: joinPieces '/' ss := by
      rw [← joinPieces_cons hne, ← hs, joinPieces_pieces]
    have hu : '/' ∉ u := notMem_of_mem_pieces (hs ▸ List.mem_cons_self)
    exact ⟨u, _, hjoin, hu, hmg, (matches_one_iff rfl).2 ⟨'/', _, rfl, by simp, hm⟩⟩

/-! ## Across segments -/

/-- At the end of the text it makes no difference whether a segment starts. -/
theorem matches_end {ts : List Token} {start : Bool} (h : Matches start ts []) (start' : Bool) :
    Matches start' ts [] := by
  induction ts generalizing start start' with
  | nil => exact .nil
  | cons t ts ih =>
    cases h with
    | here hw h => exact .here hw (ih h start')
    | longer hw hl h =>
      cases hl with
      | finish => exact .here hw (ih h start')

/-- Going on through the rest of a segment and the slash after it. -/
theorem Longer.through {start : Bool} {u r : List Char} (hu : '/' ∉ u)
    (hd : start = true → isHidden u = false) :
    Longer false start (u ++ '/' :: r) true r ∧ ∀ {start' : Bool} {s' : List Char},
      Longer false true r start' s' → Longer false start (u ++ '/' :: r) start' s' := by
  induction u generalizing start with
  | nil =>
    refine ⟨.stop (by simp) (by simp), fun h => ?_⟩
    exact .more (by simp) (by simp) (by simpa using h)
  | cons c u ih =>
    have hc : c ≠ '/' := fun h => hu (by simp [h])
    have hcb : (c == '/') = false := beq_false_of_ne hc
    have hd' : start = true → c ≠ '.' := by simpa [isHidden] using hd
    obtain ⟨hstop, hmore⟩ :=
      @ih false (fun h => hu (List.mem_cons_of_mem c h)) (by simp)
    exact ⟨.more hd' (by simp) (hcb ▸ hstop), fun h => .more hd' (by simp) (hcb ▸ hmore h)⟩

/-- What a sequence of whole segments takes: segments that are not hidden, up to the start of
another or to the end of the text. -/
theorem Longer.segments {start start' : Bool} {s s' : List Char}
    (h : Longer false start s start' s') {p : List Char} {ps : List (List Char)}
    (hp : pieces '/' s = p :: ps) :
    (start = true → isHidden p = false) ∧
      ((start' = true ∧ ∃ skipped, (∀ q ∈ skipped, isHidden q = false) ∧
          ps = skipped ++ pieces '/' s') ∨
        s' = [] ∧ ∀ q ∈ ps, isHidden q = false) := by
  -- By induction on what is taken, which ends the first piece with each slash.
  induction h generalizing p ps with
  | finish =>
    obtain ⟨rfl, rfl⟩ : [] = p ∧ [] = ps := by simpa using hp
    simp [isHidden]
  | stop _ hc =>
    obtain rfl := beq_iff_eq.1 hc
    obtain ⟨rfl, rfl⟩ : [] = p ∧ _ = ps := by simpa using hp
    exact ⟨by simp [isHidden], .inl ⟨rfl, [], by simp, rfl⟩⟩
  | @more start c s start' s' hd _ _ ih =>
    obtain ⟨q, qs, hq⟩ := exists_pieces_eq_cons '/' s
    obtain ⟨hqd, hrest⟩ := ih hq
    by_cases hc : c = '/'
    · -- What is left of this segment is empty, and the next one starts.
      subst hc
      obtain ⟨rfl, rfl⟩ : [] = p ∧ q :: qs = ps := by simpa [hq] using hp
      have hqd := hqd rfl
      refine ⟨by simp [isHidden], ?_⟩
      rcases hrest with ⟨hs, skipped, hsk, rfl⟩ | ⟨hs, hqs⟩
      · exact .inl ⟨hs, q :: skipped, by simpa [hqd] using hsk, rfl⟩
      · exact .inr ⟨hs, by simpa [hqd] using hqs⟩
    · rw [pieces_cons_of_ne hc, hq] at hp
      obtain ⟨rfl, rfl⟩ : c :: q = p ∧ qs = ps := by simpa using hp
      exact ⟨by simpa [isHidden] using hd, hrest⟩

/-- A sequence can take whole segments that are not hidden. -/
theorem Longer.skip {start : Bool} {p : List Char} {skipped ss : List (List Char)}
    (hp : start = true → isHidden p = false) (hs : ∀ q ∈ skipped, isHidden q = false)
    (hslash : ∀ q ∈ p :: skipped, '/' ∉ q) (hss : ss ≠ []) :
    Longer false start (joinPieces '/' (p :: (skipped ++ ss))) true (joinPieces '/' ss) := by
  induction skipped generalizing start p with
  | nil =>
    rw [List.nil_append, joinPieces_cons hss]
    exact (through (hslash p (by simp)) hp).1
  | cons q skipped ih =>
    rw [joinPieces_cons (by simp)]
    refine (through (hslash p (by simp)) hp).2 ?_
    exact ih (fun _ => hs q (by simp)) (fun q' hq' => hs q' (by simp [hq']))
      (fun q' hq' => hslash q' (List.mem_cons_of_mem p hq'))

/-- A sequence can take all that is left, if no segment of it is hidden. -/
theorem Longer.all {start : Bool} {s p : List Char} {ps : List (List Char)}
    (hs : pieces '/' s = p :: ps) (hp : start = true → isHidden p = false)
    (hps : ∀ q ∈ ps, isHidden q = false) : ∃ start', Longer false start s start' [] := by
  induction s generalizing start p ps with
  | nil => exact ⟨start, .finish⟩
  | cons c s ih =>
    obtain ⟨q, qs, hq⟩ := exists_pieces_eq_cons '/' s
    by_cases hc : c = '/'
    · subst hc
      obtain ⟨rfl, rfl⟩ : [] = p ∧ q :: qs = ps := by simpa [hq] using hs
      obtain ⟨start', h⟩ := @ih true q qs hq (fun _ => hps q (by simp))
        (fun q' hq' => hps q' (by simp [hq']))
      exact ⟨start', .more (by simp) (by simp) h⟩
    · rw [pieces_cons_of_ne hc, hq] at hs
      obtain ⟨rfl, rfl⟩ : c :: q = p ∧ qs = ps := by simpa using hs
      obtain ⟨start', h⟩ := @ih false q qs hq (by simp) hps
      exact ⟨start', .more (by simpa [isHidden] using hp) (by simp) (beq_false_of_ne hc ▸ h)⟩

/-- `**` before other tokens: it takes some segments that are not hidden, or all there are. -/
theorem matches_anySegments_iff {ts : List Token} {s : List Char} :
    Matches true (.anySegments :: ts) s ↔
      (∃ skipped r, pieces '/' s = skipped ++ pieces '/' r ∧ (∀ q ∈ skipped, isHidden q = false) ∧
        Matches true ts r) ∨
      (∀ q ∈ pieces '/' s, isHidden q = false) ∧ ∃ start, Matches start ts [] := by
  obtain ⟨p, ps, hp⟩ := exists_pieces_eq_cons '/' s
  rw [matches_sequence_iff rfl]
  constructor
  · rintro (hm | ⟨start', s', hl, hm⟩)
    · exact .inl ⟨[], s, rfl, by simp, hm⟩
    · obtain ⟨hpd, hrest⟩ := hl.segments hp
      have hpd := hpd rfl
      rcases hrest with ⟨rfl, skipped, hs, rfl⟩ | ⟨rfl, hps⟩
      · exact .inl ⟨p :: skipped, s', hp, by simpa [hpd] using hs, hm⟩
      · exact .inr ⟨by simpa [hp, hpd] using hps, start', hm⟩
  · rintro (⟨skipped, r, hs, hd, hm⟩ | ⟨hd, start, hm⟩)
    · have hjoin : s = joinPieces '/' (skipped ++ pieces '/' r) := by rw [← hs, joinPieces_pieces]
      cases skipped with
      | nil =>
        rw [List.nil_append, joinPieces_pieces] at hjoin
        exact .inl (hjoin ▸ hm)
      | cons q skipped =>
        -- The sequence ends with the slash after the last segment that it skips.
        have hslash : ∀ q' ∈ q :: skipped, '/' ∉ q' := fun q' hq' =>
          notMem_of_mem_pieces (hs ▸ List.mem_append_left _ hq')
        have hl : Longer false true _ true _ := Longer.skip (fun _ => hd q (by simp))
          (fun q' hq' => hd q' (by simp [hq'])) hslash (pieces_ne_nil '/' r)
        rw [joinPieces_pieces, ← List.cons_append, ← hjoin] at hl
        exact .inr ⟨true, r, hl, hm⟩
    · rw [hp] at hd
      obtain ⟨start', hl⟩ : ∃ start', Longer false true s start' [] :=
        Longer.all hp (fun _ => hd p (by simp)) (fun q hq => hd q (by simp [hq]))
      exact .inr ⟨start', [], hl, matches_end hm start'⟩

/-- `**` before tokens that only match nothing. -/
theorem matches_anySegments_last_iff {ts : List Token} (hts : ∀ r, Matches true ts r ↔ r = [])
    {s : List Char} :
    Matches true (.anySegments :: ts) s ↔ ∀ q ∈ pieces '/' s, isHidden q = false := by
  rw [matches_anySegments_iff]
  constructor
  · rintro (⟨skipped, r, hs, hd, hm⟩ | ⟨hd, -⟩)
    · obtain rfl := (hts r).1 hm
      intro q hq
      rw [hs, pieces_nil, List.mem_append, List.mem_singleton] at hq
      rcases hq with hq | rfl
      · exact hd q hq
      · rfl
    · exact hd
  · intro hd
    exact .inr ⟨hd, true, (hts []).2 rfl⟩

/-- Only stars match nothing. -/
theorem SegmentMatches.all_star {start : Bool} {g : List Token} (h : SegmentMatches start g []) :
    ∀ t ∈ g, t = .anySequence := by
  generalize hs : ([] : List Char) = s at h
  induction h with
  | nil => simp
  | char | anyChar | bracket => simp at hs
  | anySequence _ _ ih =>
    obtain ⟨rfl, rfl⟩ := List.nil_eq_append_iff.1 hs
    simpa using ih rfl

/-- A segment that matches nothing is empty or a single star, unless it stands for any segments. -/
theorem SegmentMatches.eq_star {start : Bool} {g : List Token} (h : SegmentMatches start g [])
    (hg : isAnySegments g = false) : g = [] ∨ g = [.anySequence] := by
  have hall := h.all_star
  match g with
  | [] => exact .inl rfl
  | [t] => exact .inr (by simpa using hall)
  | t :: u :: g =>
    have hany : isAnySegments (t :: u :: g) = true := by simpa [isAnySegments] using hall
    simp [hg] at hany

/-- If the tokens of some segments can do without any text, the segments match any one segment that
is not hidden. -/
theorem Assembles.segmentsMatch_singleton {gs : List (List Token)} {ts : List Token}
    (h : Assembles gs ts) (hseg : ∀ g ∈ gs, IsSegment g) (hne : gs ≠ [[]]) {start : Bool}
    (hm : Matches start ts []) {s : List Char} (hs : isHidden s = false) :
    SegmentsMatch (trim gs) [s] := by
  induction h generalizing start with
  | @last g hg =>
    rw [trim_cons_of_not hg, trim, segmentsMatch_one_iff hg]
    refine ⟨s, [], rfl, ?_, .nil⟩
    rw [← List.append_nil g, matches_append_iff (hseg g (by simp))] at hm
    obtain ⟨u, r, hur, -, hmg, -⟩ := hm
    obtain ⟨rfl, rfl⟩ := List.nil_eq_append_iff.1 hur
    rcases hmg.eq_star hg with rfl | rfl
    · exact absurd rfl hne
    · exact segmentMatches_star_iff.2 ⟨s, [], by simp, fun _ => hs, .nil⟩
  | @lastAny g hg =>
    rw [trim_cons_of_ne (by simp), trim, segmentsMatch_singleton_any_iff hg]
    simpa using hs
  | @one g gs ts hg _ _ =>
    -- The slash after the segment needs a slash in the text.
    rw [matches_append_iff (hseg g (by simp))] at hm
    obtain ⟨u, r, hur, -, -, hm⟩ := hm
    obtain ⟨rfl, rfl⟩ := List.nil_eq_append_iff.1 hur
    obtain ⟨c, r, hr, -⟩ := (matches_one_iff rfl).1 hm
    simp at hr
  | @any g gs ts hg h ih =>
    by_cases hgs : gs = [[]]
    · subst hgs
      rw [trim_any_nil hg, segmentsMatch_singleton_any_iff hg]
      simpa using hs
    · rw [trim_cons_of_ne hgs, segmentsMatch_any_iff hg]
      have hm' : Matches start ts [] := by
        rcases (matches_sequence_iff rfl).1 hm with hm | ⟨start', s', hl, hm⟩
        · exact hm
        · cases hl with
          | finish => exact hm
      exact ⟨[], [s], rfl, by simp, fun h' => absurd h' (trim_ne_nil h.ne_nil),
        ih (fun g' hg' => hseg g' (List.mem_cons_of_mem g hg')) hgs hm'⟩
  | @again g g' gs ts hg hg' h ih =>
    rw [trim_cons_of_ne (by rintro ⟨⟩; simp at hg'), segmentsMatch_any_iff hg]
    have hne' : g' :: gs ≠ [[]] := by
      rintro ⟨⟩
      simp at hg'
    exact ⟨[], [s], rfl, by simp, fun h' => absurd h' (trim_ne_nil h.ne_nil),
      ih (fun g'' hg'' => hseg g'' (List.mem_cons_of_mem g hg'')) hne' hm⟩

/-- The empty segment after `**/` has no token, so the text is at its end there. -/
theorem Assembles.matches_empty_iff {ts : List Token} (h : Assembles [[]] ts) (s : List Char) :
    Matches true ts s ↔ s = [] := by
  cases h with
  | last => exact matches_nil_iff
  | lastAny hg => simp at hg
  | one _ h => exact absurd rfl h.ne_nil
  | any hg => simp at hg

section Trim

variable {gs : List (List Token)} {ss : List (List Char)}

/-- Some segments are left after trimming, so they match some text segments. -/
theorem SegmentsMatch.ne_nil_of_trim (h : SegmentsMatch (trim gs) ss)
    (hgs : gs ≠ []) : ss ≠ [] := by
  rintro rfl
  exact trim_ne_nil hgs h.eq_nil

/-- The last segments of a text are those of the text that they make. -/
theorem pieces_joinPieces_of_append {s : List Char} {front : List (List Char)}
    (hs : pieces '/' s = front ++ ss) (hne : ss ≠ []) : pieces '/' (joinPieces '/' ss) = ss :=
  pieces_joinPieces hne fun _ hq => notMem_of_mem_pieces (hs ▸ List.mem_append_right front hq)

variable {ts : List Token} (h : Assembles gs ts) {g : List Token} (s : List Char)
  (ih : ∀ r, Matches true ts r ↔ SegmentsMatch (trim gs) (pieces '/' r))

include h ih

/-- A segment and a slash, before tokens that match as their segments do. -/
theorem Assembles.matches_one_iff (hg : isAnySegments g = false) (hseg : IsSegment g) :
    Matches true (g ++ .char '/' :: ts) s ↔ SegmentsMatch (g :: trim gs) (pieces '/' s) := by
  rw [segmentsMatch_one_iff hg, matches_segment_slash_iff hseg]
  constructor
  · rintro ⟨u, ss, hs, hne, hmg, hm⟩
    have hss := (ih _).1 hm
    rw [pieces_joinPieces_of_append (show _ = [u] ++ ss from hs) hne] at hss
    exact ⟨u, ss, hs, hmg, hss⟩
  · rintro ⟨u, ss, hs, hmg, hss⟩
    have hne : ss ≠ [] := hss.ne_nil_of_trim h.ne_nil
    refine ⟨u, ss, hs, hne, hmg, (ih _).2 ?_⟩
    rwa [pieces_joinPieces_of_append (show _ = [u] ++ ss from hs) hne]

/-- `**` before tokens that match as their segments do. -/
theorem Assembles.matches_any_iff (hg : isAnySegments g = true) (hseg : ∀ g' ∈ gs, IsSegment g')
    (hgs : gs ≠ [[]]) :
    Matches true (.anySegments :: ts) s ↔ SegmentsMatch (g :: trim gs) (pieces '/' s) := by
  rw [segmentsMatch_any_iff hg, matches_anySegments_iff]
  constructor
  · rintro (⟨skipped, r, hs, hd, hm⟩ | ⟨hd, start, hm⟩)
    · exact ⟨skipped, pieces '/' r, hs, hd, fun hnil => absurd hnil (trim_ne_nil h.ne_nil),
        (ih r).1 hm⟩
    · -- All is skipped but for the last segment, which the tokens left match.
      obtain ⟨init, last, hlast⟩ : ∃ init last, pieces '/' s = init ++ [last] :=
        ⟨_, _, (List.dropLast_append_getLast (pieces_ne_nil '/' s)).symm⟩
      rw [hlast] at hd
      exact ⟨init, [last], hlast, fun q hq => hd q (List.mem_append_left _ hq),
        fun hnil => absurd hnil (trim_ne_nil h.ne_nil),
        h.segmentsMatch_singleton hseg hgs hm (hd last (by simp))⟩
  · rintro ⟨skipped, ss, hs, hd, -, hss⟩
    have hjoin := pieces_joinPieces_of_append hs (hss.ne_nil_of_trim h.ne_nil)
    refine .inl ⟨skipped, joinPieces '/' ss, by rw [hjoin, hs], hd, ?_⟩
    rw [ih, hjoin]
    exact hss

end Trim

/-- Tokens put together from segments match a text exactly if the segments match its segments. -/
theorem Assembles.matches_iff {gs : List (List Token)} {ts : List Token} (h : Assembles gs ts)
    (hseg : ∀ g ∈ gs, IsSegment g) (s : List Char) :
    Matches true ts s ↔ SegmentsMatch (trim gs) (pieces '/' s) := by
  induction h generalizing s with
  | @last g hg =>
    rw [trim_cons_of_not hg, trim, segmentsMatch_one_iff hg, matches_segment_iff (hseg g (by simp))]
    simp
  | @lastAny g hg =>
    rw [trim_cons_of_ne (by simp), trim, segmentsMatch_singleton_any_iff hg,
      matches_anySegments_last_iff fun _ => matches_nil_iff]
    simp
  | @one g gs ts hg h ih =>
    rw [trim_cons_of_not hg]
    exact h.matches_one_iff s (ih fun g' hg' => hseg g' (List.mem_cons_of_mem g hg')) hg
      (hseg g List.mem_cons_self)
  | @any g gs ts hg h ih =>
    have hseg' : ∀ g' ∈ gs, IsSegment g' := fun g' hg' => hseg g' (List.mem_cons_of_mem g hg')
    by_cases hgs : gs = [[]]
    · -- A slash at the end after `**` stands for nothing of its own.
      subst hgs
      rw [trim_any_nil hg, segmentsMatch_singleton_any_iff hg,
        matches_anySegments_last_iff h.matches_empty_iff]
      simp
    · rw [trim_cons_of_ne hgs]
      exact h.matches_any_iff s (ih hseg') hg hseg' hgs
  | @again g g' gs ts hg hg' h ih =>
    -- The second of two in a row has no token, and stands for no more than the first.
    have hne : g' :: gs ≠ [[]] := by
      rintro ⟨⟩
      simp at hg'
    rw [ih fun g'' hg'' => hseg g'' (List.mem_cons_of_mem g hg''), trim_cons_of_ne hne]
    by_cases hgs : gs = [[]]
    · rw [hgs, trim_any_nil hg', segmentsMatch_again_iff hg hg']
    · rw [trim_cons_of_ne hgs, segmentsMatch_again_iff hg hg']

/-! ## The tokens of a spelling -/

/-- No unit is `**`. -/
theorem anySegments_notMem_units (s : List Char) : .anySegments ∉ units s := by
  fun_induction units s <;> simp_all

/-- The segments of a text are segments. -/
theorem isSegment_of_mem_segments {s : List Char} {g : List Token} (h : g ∈ segments s) :
    IsSegment g :=
  ⟨notMem_of_mem_pieces h, fun hm => anySegments_notMem_units s (mem_of_mem_pieces h hm)⟩

/-- A token may stand in front of a recursive segment only if it is a slash or another recursive
segment. -/
theorem wellPlaced_cons {t : Token} {ts : List Token}
    (h : ts.head? = some .anySegments → t = .char '/' ∨ t = .anySegments) (hts : WellPlaced ts) :
    WellPlaced (t :: ts) := by
  cases ts with
  | nil => exact List.isChain_singleton t
  | cons u us => exact List.isChain_cons_cons.2 ⟨fun hu => h (by rw [hu]; rfl), hts⟩

/-- The units of a segment make no trouble in front of well-placed tokens. -/
theorem IsSegment.wellPlaced_append {g : List Token} (hg : IsSegment g) {ts : List Token}
    (hts : WellPlaced ts) (hhead : ts.head? ≠ some .anySegments) : WellPlaced (g ++ ts) := by
  induction g with
  | nil => exact hts
  | cons t g ih =>
    refine wellPlaced_cons (fun h => ?_) (ih hg.tail)
    cases g with
    | nil => exact absurd h hhead
    | cons u g => simp_all [IsSegment]

/-- In tokens put together from segments every `**` is well placed. -/
theorem Assembles.wellPlaced {gs : List (List Token)} {ts : List Token} (h : Assembles gs ts)
    (hseg : ∀ g ∈ gs, IsSegment g) : WellPlaced ts := by
  induction h with
  | @last g _ =>
    rw [← List.append_nil g]
    exact (hseg g (by simp)).wellPlaced_append .nil (by simp)
  | lastAny => exact List.isChain_singleton _
  | one _ _ ih =>
    refine (hseg _ (by simp)).wellPlaced_append (wellPlaced_cons (fun _ => .inl rfl) ?_) (by simp)
    exact ih fun g' hg' => hseg g' (List.mem_cons_of_mem _ hg')
  | any _ _ ih =>
    exact wellPlaced_cons (fun _ => .inr rfl)
      (ih fun g' hg' => hseg g' (List.mem_cons_of_mem _ hg'))
  | again _ _ _ ih => exact ih fun g' hg' => hseg g' (List.mem_cons_of_mem _ hg')

/-- **The tokens of a spelling accept the texts whose segments its segments match.** -/
theorem accepts_tokenise_iff {s : List Char} {ts : List Token} (h : tokenise s = .ok ts)
    (text : List Char) :
    accepts ts text = true ↔ SegmentsMatch (trim (segments s)) (pieces '/' text) := by
  have ha := assembles_of_tokenise h
  have hseg := fun g (hg : g ∈ segments s) => isSegment_of_mem_segments hg
  rw [accepts_iff_matches (ha.wellPlaced hseg), ha.matches_iff hseg]

end ImportLint.Glob

import ImportLint.Glob.Match
import Mathlib.Data.List.Chain

/-!
# The search for a match is complete

`matchFrom` tries ever longer sequences and gives up early: once the text has run out before the
tokens, it tries no longer sequence at all. Here the tokens get a meaning without a search,
`Matches`, in which a sequence may end at any place where it is allowed to, and the search is shown
to find a match whenever there is one. What makes giving up safe is that an exhausted search has
been at the end of the text: every place further on where the tokens could start was tried.
-/

namespace ImportLint.Glob

/-! ## What tokens mean -/

/-- Whether a token is a sequence, and if it is, whether it stays within a segment. -/
def Token.within? : Token → Option Bool
  | .anySequence => some true
  | .anySegments => some false
  | _ => none

/-- `Longer within start s start' s'`: a sequence that stands before `s` may end before `s'` after
it has taken at least one character, or when there is none left. The flags tell whether the places
start a segment. -/
inductive Longer (within : Bool) : Bool → List Char → Bool → List Char → Prop
  | finish {start} : Longer within start [] start []
  | stop {start c s} : (start = true → c ≠ '.') → (c == '/') = !within →
      Longer within start (c :: s) (c == '/') s
  | more {start c s start' s'} : (start = true → c ≠ '.') → (within = true → c ≠ '/') →
      Longer within (c == '/') s start' s' → Longer within start (c :: s) start' s'

/-- What it means for tokens to **match** a text, which may start a segment. -/
inductive Matches : Bool → List Token → List Char → Prop
  | nil {start} : Matches start [] []
  | one {start t c ts s} : t.admits start c = true → Matches (c == '/') ts s →
      Matches start (t :: ts) (c :: s)
  | here {start t within ts s} : t.within? = some within → Matches start ts s →
      Matches start (t :: ts) s
  | longer {start t within ts s start' s'} : t.within? = some within →
      Longer within start s start' s' → Matches start' ts s' → Matches start (t :: ts) s

/-- A character admits itself. -/
@[simp] theorem Token.admits_char (start : Bool) (c d : Char) :
    (Token.char d).admits start c = (c == d) := rfl

/-- A question mark admits any character but a slash, and a dot only inside a segment. -/
@[simp] theorem Token.admits_anyChar (start : Bool) (c : Char) :
    Token.anyChar.admits start c = (c != '/' && !(start && c == '.')) := rfl

/-- A class admits what a question mark does, if it has the character. -/
@[simp] theorem Token.admits_bracket (start : Bool) (c : Char) (b : Bracket) :
    (Token.bracket b).admits start c = (c != '/' && !(start && c == '.') && b.admits c) := rfl

/-- A star admits no single character, as it is matched by sequences. -/
@[simp] theorem Token.admits_anySequence (start : Bool) (c : Char) :
    Token.anySequence.admits start c = false := rfl

/-- A recursive segment admits no single character, as it is matched by sequences. -/
@[simp] theorem Token.admits_anySegments (start : Bool) (c : Char) :
    Token.anySegments.admits start c = false := rfl

/-- A sequence admits no single character. -/
theorem Token.admits_eq_false {t : Token} {within : Bool} (h : t.within? = some within)
    (start : Bool) (c : Char) : t.admits start c = false := by
  cases t with
  | anySequence | anySegments => rfl
  | char | anyChar | bracket => simp [Token.within?] at h

/-- No tokens match the empty text only. -/
@[simp] theorem matches_nil_iff {start : Bool} {s : List Char} : Matches start [] s ↔ s = [] := by
  constructor
  · rintro ⟨⟩
    rfl
  · rintro rfl
    exact .nil

/-- A token that is no sequence takes one character. -/
theorem matches_one_iff {t : Token} (h : t.within? = none) {start : Bool} {ts : List Token}
    {s : List Char} :
    Matches start (t :: ts) s ↔
      ∃ c r, s = c :: r ∧ t.admits start c = true ∧ Matches (c == '/') ts r := by
  constructor
  · intro hm
    cases hm with
    | one ha hm => exact ⟨_, _, rfl, ha, hm⟩
    | here hw => simp [h] at hw
    | longer hw => simp [h] at hw
  · rintro ⟨c, r, rfl, ha, hm⟩
    exact .one ha hm

/-- A sequence ends where it stands or further on. -/
theorem matches_sequence_iff {t : Token} {within : Bool}
    (h : t.within? = some within) {start : Bool} {ts : List Token} {s : List Char} :
    Matches start (t :: ts) s ↔
      Matches start ts s ∨ ∃ start' s', Longer within start s start' s' ∧ Matches start' ts s' := by
  constructor
  · intro hm
    cases hm with
    | one ha => simp [Token.admits_eq_false h] at ha
    | here _ hm => exact .inl hm
    | longer hw hl hm =>
      obtain rfl : within = _ := Option.some.inj (h.symm.trans hw)
      exact .inr ⟨_, _, hl, hm⟩
  · rintro (hm | ⟨start', s', hl, hm⟩)
    · exact .here h hm
    · exact .longer h hl hm

/-! ## One step of the search -/

/-- A token for one character uses up an empty text. -/
theorem matchFrom_one_nil {t : Token} (h : t.within? = none) (start : Bool) (ts : List Token) :
    matchFrom start (t :: ts) [] = .exhausted := by
  cases t <;> simp_all [Token.within?, matchFrom]

/-- A token for one character takes the first, if it admits it. -/
theorem matchFrom_one_cons {t : Token} (h : t.within? = none) (start : Bool) (ts : List Token)
    (c : Char) (s : List Char) :
    matchFrom start (t :: ts) (c :: s) =
      if t.admits start c then matchFrom (c == '/') ts s else .mismatch := by
  cases t <;> simp_all [Token.within?, matchFrom]

/-- A sequence first tries to take nothing, and more on a mismatch only. -/
theorem matchFrom_sequence {t : Token} {within : Bool} (h : t.within? = some within) (start : Bool)
    (ts : List Token) (s : List Char) :
    matchFrom start (t :: ts) s =
      match matchFrom start ts s with
      | .mismatch => matchLonger start within ts s
      | o => o := by
  cases t with
  | anySequence =>
    obtain rfl : true = within := by simpa [Token.within?] using h
    cases ho : matchFrom start ts s <;> simp [matchFrom, ho]
  | anySegments =>
    obtain rfl : false = within := by simpa [Token.within?] using h
    cases ho : matchFrom start ts s <;> simp [matchFrom, ho]
  | char | anyChar | bracket => simp [Token.within?] at h

/-! ## Places further on -/

/-- `Reach start s start' s'`: reading on from before `s` comes to before `s'`. -/
inductive Reach : Bool → List Char → Bool → List Char → Prop
  | refl {start s} : Reach start s start s
  | next {start c s start' s'} : Reach (c == '/') s start' s' → Reach start (c :: s) start' s'

/-- Reading on may take one character more. -/
theorem Reach.step {start : Bool} {s : List Char} {start' : Bool} {c : Char} {s' : List Char}
    (h : Reach start s start' (c :: s')) : Reach start s (c == '/') s' := by
  generalize hr : c :: s' = r at h
  induction h with
  | refl =>
    subst hr
    exact .next .refl
  | next _ ih => exact .next (ih hr)

/-- Reading on may be done in two parts. -/
theorem Reach.trans {start₁ start₂ start₃ : Bool} {s₁ s₂ s₃ : List Char}
    (h : Reach start₁ s₁ start₂ s₂) (h' : Reach start₂ s₂ start₃ s₃) :
    Reach start₁ s₁ start₃ s₃ := by
  induction h with
  | refl => exact h'
  | next _ ih => exact .next (ih h')

/-- `Beyond start s start' s'`: the place before `s'` lies further on than that before `s`, or both
are the end of the text. -/
def Beyond (start : Bool) (s : List Char) (start' : Bool) (s' : List Char) : Prop :=
  match s with
  | [] => start' = start ∧ s' = []
  | c :: r => Reach (c == '/') r start' s'

/-- The place where a longer sequence ends lies beyond the one where it starts. -/
theorem Longer.beyond {within start start' : Bool} {s s' : List Char}
    (h : Longer within start s start' s') : Beyond start s start' s' := by
  induction h with
  | finish => exact ⟨rfl, rfl⟩
  | stop => exact .refl
  | @more _ c s _ _ _ _ _ ih =>
    cases s with
    | nil =>
      obtain ⟨rfl, rfl⟩ := ih
      exact .refl
    | cons d r => exact .next ih

/-- A place that lies beyond is reached by reading on. -/
theorem Beyond.reach {start start' : Bool} {s s' : List Char} (h : Beyond start s start' s') :
    Reach start s start' s' := by
  cases s with
  | nil =>
    obtain ⟨rfl, rfl⟩ := h
    exact .refl
  | cons c r => exact .next h

/-- A place reached is the same place or lies beyond. -/
theorem Reach.eq_or_beyond {start start' : Bool} {s s' : List Char} (h : Reach start s start' s') :
    (start' = start ∧ s' = s) ∨ Beyond start s start' s' := by
  cases h with
  | refl => exact .inl ⟨rfl, rfl⟩
  | next h => exact .inr h

/-- Where a sequence may end at all: one that does not stay within a segment ends with one. -/
def CanEnd (within start : Bool) (s : List Char) : Prop := within = false → start = true ∨ s = []

/-- A longer sequence ends where it can end. -/
theorem Longer.canEnd {within start start' : Bool} {s s' : List Char}
    (h : Longer within start s start' s') : CanEnd within start' s' := by
  induction h with
  | finish => exact fun _ => .inr rfl
  | stop _ hc =>
    rintro rfl
    exact .inl hc
  | more _ _ _ ih => exact ih

/-! ## Completeness -/

/-- Where tokens may start: `**` starts with a segment, or at the end of the text. -/
def CanStart (ts : List Token) (start : Bool) (s : List Char) : Prop :=
  ts.head? = some .anySegments → start = true ∨ s = []

/-- A **well-placed** `**` is the first token or comes after a slash or another `**`. -/
def WellPlaced (ts : List Token) : Prop :=
  ts.IsChain fun t u => u = .anySegments → t = .char '/' ∨ t = .anySegments

/-- What the search says of tokens: it finds a match if there is one, and if it is exhausted, there
is none further on. -/
structure Searchable (ts : List Token) : Prop where
  matched_iff : ∀ start s, matchFrom start ts s = .matched ↔ Matches start ts s
  exhausted : ∀ start s, matchFrom start ts s = .exhausted →
    ∀ start' s', Reach start s start' s' → CanStart ts start' s' → ¬ Matches start' ts s'

/-- A mismatch is no match. -/
theorem Searchable.mismatch {ts : List Token} (hs : Searchable ts) {start : Bool} {s : List Char}
    (h : matchFrom start ts s = .mismatch) : ¬ Matches start ts s := by
  rw [← hs.matched_iff, h]
  exact Outcome.noConfusion

/-- After a token that is no sequence, the search goes on as after the text's next character. -/
theorem Searchable.cons_one {t : Token} {ts : List Token} (hs : Searchable ts)
    (ht : t.within? = none) (hp : ts.head? = some .anySegments → t = .char '/') :
    Searchable (t :: ts) where
  matched_iff start s := by
    rw [matches_one_iff ht]
    cases s with
    | nil => simp [matchFrom_one_nil ht]
    | cons c r =>
      rw [matchFrom_one_cons ht]
      by_cases ha : t.admits start c = true
      · rw [if_pos ha, hs.matched_iff]
        constructor
        · intro hm
          exact ⟨c, r, rfl, ha, hm⟩
        · rintro ⟨_, _, ⟨⟩, _, hm⟩
          exact hm
      · rw [if_neg ha]
        simp only [reduceCtorEq, false_iff, not_exists, not_and]
        rintro _ _ ⟨⟩ ha'
        exact absurd ha' ha
  exhausted start s h start' s' hr _ hm := by
    -- A match further on would leave one for the tokens after this, further on than where they gave
    -- up.
    obtain ⟨d, r', rfl, hd, hm⟩ := (matches_one_iff ht).1 hm
    cases s with
    | nil => cases hr
    | cons c r =>
      rw [matchFrom_one_cons ht] at h
      have ha : t.admits start c = true := by
        by_contra ha
        simp [ha] at h
      rw [if_pos ha] at h
      have hr' : Reach (c == '/') r (d == '/') r' := by
        cases hr with
        | refl => exact .refl
        | next hr => exact hr.step
      -- The place after a slash starts a segment, so the tokens left may start there.
      have hst : CanStart ts (d == '/') r' := by
        intro hh
        rw [hp hh, Token.admits_char] at hd
        exact .inl (by simpa using hd)
      exact hs.exhausted _ _ h _ _ hr' hst hm

section Loop

variable {within : Bool} {ts : List Token}

/-- What an outcome of the loop over longer sequences says of the places where a sequence may
end. -/
def Outcome.Tells (within : Bool) (ts : List Token) (start : Bool) (s : List Char) : Outcome → Prop
  | .matched => ∃ start' s', Longer within start s start' s' ∧ Matches start' ts s'
  | .mismatch => ∀ start' s', Longer within start s start' s' → ¬ Matches start' ts s'
  | .exhausted => ∀ start' s', Beyond start s start' s' → CanEnd within start' s' →
      ¬ Matches start' ts s'

/-- At the end of the text a sequence can only end. -/
theorem matchFrom_nil_tells (hs : Searchable ts) (start : Bool) :
    (matchFrom start ts []).Tells within ts start [] := by
  cases h : matchFrom start ts [] with
  | matched => exact ⟨start, [], .finish, (hs.matched_iff _ _).1 h⟩
  | mismatch =>
    rintro start' s' ⟨⟩
    exact hs.mismatch h
  | exhausted =>
    rintro start' s' ⟨rfl, rfl⟩ _
    exact hs.exhausted _ _ h _ _ .refl fun _ => .inr rfl

/-- A sequence that may not take the next character ends nowhere further on. -/
theorem tells_mismatch {start : Bool} {c : Char} {s : List Char}
    (hc : start = true ∧ c = '.' ∨ within = true ∧ c = '/') :
    Outcome.mismatch.Tells within ts start (c :: s) := by
  intro start' s' hl
  rcases hc with hdot | hslash
  · cases hl with
    | stop hd => exact absurd hdot.2 (hd hdot.1)
    | more hd => exact absurd hdot.2 (hd hdot.1)
  · cases hl with
    | stop _ hc => simp [hslash] at hc
    | more _ hc => exact absurd hslash.2 (hc hslash.1)

/-- A sequence of whole segments does not end in the middle of one, so the next place is none to end
at. -/
theorem Outcome.Tells.skip {start : Bool} {c : Char} {s : List Char} (hd : start = true → c ≠ '.')
    (hc : c ≠ '/') {o : Outcome} (h : o.Tells false ts false s) :
    o.Tells false ts start (c :: s) := by
  have hb : (c == '/') = false := beq_false_of_ne hc
  cases o with
  | matched =>
    obtain ⟨start', s', hl, hm⟩ := h
    exact ⟨start', s', .more hd (by simp) (hb ▸ hl), hm⟩
  | mismatch =>
    intro start' s' hl
    cases hl with
    | stop _ hc => simp [hb] at hc
    | more _ _ hl => exact h _ _ (hb ▸ hl)
  | exhausted =>
    intro start' s' hr hend
    rcases Reach.eq_or_beyond (show Reach (c == '/') s start' s' from hr) with ⟨rfl, rfl⟩ | hr
    · -- The next place is in the middle of a segment, so only the end of the text is one to end at.
      rcases hend rfl with he | rfl
      · simp [hb] at he
      · exact h _ _ ⟨hb, rfl⟩ hend
    · exact h _ _ (hb ▸ hr) hend

/-- Where a sequence may end at the next place, that place is tried, and the ones after it if it
fails. -/
theorem Outcome.Tells.step (hs : Searchable ts)
    (hst : ∀ {start s}, CanEnd within start s → CanStart ts start s) {start : Bool} {c : Char}
    {s : List Char} (hd : start = true → c ≠ '.') (hc : within = true → c ≠ '/')
    (hstop : (c == '/') = !within) {o : Outcome} (h : o.Tells within ts (c == '/') s) :
    Outcome.Tells within ts start (c :: s)
      (match matchFrom (c == '/') ts s with
      | .mismatch => o
      | o' => o') := by
  -- Taking no more goes first, and only its mismatch makes the sequence longer.
  cases hfrom : matchFrom (c == '/') ts s with
  | matched => exact ⟨_, _, .stop hd hstop, (hs.matched_iff _ _).1 hfrom⟩
  | exhausted =>
    intro start' s' hr he
    exact hs.exhausted _ _ hfrom _ _ hr (hst he)
  | mismatch =>
    cases o with
    | matched =>
      obtain ⟨start', s', hl, hm⟩ := h
      exact ⟨start', s', .more hd hc hl, hm⟩
    | mismatch =>
      intro start' s' hl
      cases hl with
      | stop => exact hs.mismatch hfrom
      | more _ _ hl => exact h _ _ hl
    | exhausted =>
      intro start' s' hr he
      rcases Reach.eq_or_beyond (show Reach (c == '/') s start' s' from hr) with ⟨rfl, rfl⟩ | hr
      · exact hs.mismatch hfrom
      · exact h _ _ hr he

/-- What the loop over longer sequences says, place by place. -/
theorem matchLonger_tells (hs : Searchable ts)
    (hst : ∀ {start s}, CanEnd within start s → CanStart ts start s)
    (start : Bool) (s : List Char) : (matchLonger start within ts s).Tells within ts start s := by
  induction s generalizing start with
  | nil =>
    rw [matchLonger]
    exact matchFrom_nil_tells hs start
  | cons c r ih =>
    rw [matchLonger]
    -- The guards of the loop, in their order.
    by_cases hdot : (start && c == '.') = true
    · rw [if_pos hdot]
      exact tells_mismatch (.inl (by simpa using hdot))
    rw [if_neg hdot]
    have hd : start = true → c ≠ '.' := by simpa using hdot
    by_cases hslash : (within && c == '/') = true
    · rw [if_pos hslash]
      exact tells_mismatch (.inr (by simpa using hslash))
    rw [if_neg hslash]
    have hc : within = true → c ≠ '/' := by simpa using hslash
    by_cases hskip : (!within && c != '/') = true
    · rw [if_pos hskip]
      obtain ⟨rfl, hcs⟩ : within = false ∧ c ≠ '/' := by simpa using hskip
      exact (ih false).skip hd hcs
    · rw [if_neg hskip]
      have hstop : (c == '/') = !within := by
        cases within <;> simp_all
      exact (ih (c == '/')).step hs hst hd hc hstop

/-- Before a sequence, the search tries every place where it may end. -/
theorem Searchable.cons_sequence {t : Token} (hs : Searchable ts) (ht : t.within? = some within)
    (hst : ∀ {start s}, CanEnd within start s → CanStart ts start s) : Searchable (t :: ts) where
  matched_iff start s := by
    rw [matches_sequence_iff ht, matchFrom_sequence ht]
    cases h : matchFrom start ts s with
    | matched => simp [(hs.matched_iff _ _).1 h]
    | exhausted =>
      -- The search gave up here, but the tokens left match nowhere that the sequence could have
      -- led.
      have hno := hs.exhausted _ _ h
      constructor
      · exact Outcome.noConfusion
      · rintro (hm | ⟨start', s', hl, hm⟩)
        · rw [← hs.matched_iff, h] at hm
          exact hm
        · exact absurd hm (hno _ _ hl.beyond.reach (hst hl.canEnd))
    | mismatch =>
      have htells := matchLonger_tells hs hst start s
      -- The loop goes over the places further on, and tells of each of them.
      simp only [hs.mismatch h, false_or]
      cases hl : matchLonger start within ts s with
      | matched =>
        rw [hl] at htells
        exact iff_of_true rfl htells
      | mismatch =>
        rw [hl] at htells
        refine iff_of_false Outcome.noConfusion ?_
        rintro ⟨start', s', hlonger, hm⟩
        exact htells _ _ hlonger hm
      | exhausted =>
        rw [hl] at htells
        refine iff_of_false Outcome.noConfusion ?_
        rintro ⟨start', s', hlonger, hm⟩
        exact htells _ _ hlonger.beyond hlonger.canEnd hm
  exhausted start s h start₁ s₁ hr hcan hm := by
    have hend₁ : CanEnd within start₁ s₁ := by
      rintro rfl
      refine hcan ?_
      cases t <;> simp_all [Token.within?]
    -- Wherever the sequence ends from here, that place was tried.
    obtain ⟨start₂, s₂, hr₂, hend₂, hm₂⟩ : ∃ start₂ s₂, Reach start s start₂ s₂ ∧
        CanEnd within start₂ s₂ ∧ Matches start₂ ts s₂ := by
      rcases (matches_sequence_iff ht).1 hm with hm | ⟨start₂, s₂, hl, hm⟩
      · exact ⟨_, _, hr, hend₁, hm⟩
      · exact ⟨_, _, hr.trans hl.beyond.reach, hl.canEnd, hm⟩
    rw [matchFrom_sequence ht] at h
    cases h' : matchFrom start ts s with
    | matched => simp [h'] at h
    | exhausted => exact hs.exhausted _ _ h' _ _ hr₂ (hst hend₂) hm₂
    | mismatch =>
      have htells := matchLonger_tells hs hst start s
      simp only [h'] at h
      rw [h] at htells
      rcases hr₂.eq_or_beyond with ⟨rfl, rfl⟩ | hb
      · exact hs.mismatch h' hm₂
      · exact htells _ _ hb hend₂ hm₂

end Loop

/-- The search is complete for tokens whose `**` are well placed. -/
theorem searchable {ts : List Token} (h : WellPlaced ts) : Searchable ts := by
  induction ts with
  | nil =>
    refine ⟨fun start s => ?_, fun start s h => ?_⟩
    · cases s <;> simp [matchFrom]
    · cases s <;> simp [matchFrom] at h
  | cons t ts ih =>
    have hs := ih (List.IsChain.tail h)
    have hp : ts.head? = some .anySegments → t = .char '/' ∨ t = .anySegments := by
      intro hh
      cases ts with
      | nil => simp at hh
      | cons u us => exact (List.isChain_cons_cons.1 h).1 (by simpa using hh)
    -- By induction on the tokens: a token for one character, or a sequence that stays within a
    -- segment or not.
    cases hw : t.within? with
    | none =>
      refine hs.cons_one hw fun hh => ?_
      rcases hp hh with rfl | rfl
      · rfl
      · simp [Token.within?] at hw
    | some within =>
      refine hs.cons_sequence hw fun hend hh => ?_
      rcases hp hh with rfl | rfl
      · simp [Token.within?] at hw
      · exact hend (by simpa [Token.within?, eq_comm] using hw)

/-- **Tokens accept the texts that they match.** -/
theorem accepts_iff_matches {ts : List Token} (h : WellPlaced ts) (text : List Char) :
    accepts ts text = true ↔ Matches true ts text := by
  rw [← (searchable h).matched_iff, accepts, beq_iff_eq]

end ImportLint.Glob

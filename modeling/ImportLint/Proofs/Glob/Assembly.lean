import ImportLint.Proofs.Glob.Segment

/-!
# Tokens put together from segments

Reading a spelling into tokens, run by run of stars, comes to the same as putting tokens together
segment by segment: a slash between two segments, `**` for a segment of stars together with the
slash after it, and one `**` for several such segments in a row.
-/

namespace ImportLint.Glob

/-- `Assembles gs ts`: the segments `gs` put together are the tokens `ts`. -/
inductive Assembles : List (List Token) → List Token → Prop
  | last {g} : isAnySegments g = false → Assembles [g] g
  | lastAny {g} : isAnySegments g = true → Assembles [g] [.anySegments]
  | one {g gs ts} : isAnySegments g = false → Assembles gs ts →
      Assembles (g :: gs) (g ++ .char '/' :: ts)
  | any {g gs ts} : isAnySegments g = true → Assembles gs ts →
      Assembles (g :: gs) (.anySegments :: ts)
  | again {g g' gs ts} : isAnySegments g = true → isAnySegments g' = true →
      Assembles (g' :: gs) ts → Assembles (g :: g' :: gs) ts

/-- There is something to put together. -/
theorem Assembles.ne_nil {gs : List (List Token)} {ts : List Token} (h : Assembles gs ts) :
    gs ≠ [] := by
  cases h <;> simp

/-- A unit in front of the first segment. -/
theorem Assembles.cons {g : List Token} {gs : List (List Token)} {ts : List Token}
    (h : Assembles (g :: gs) ts) (hg : isAnySegments g = false) {u : Token}
    (hu : isAnySegments (u :: g) = false) : Assembles ((u :: g) :: gs) (u :: ts) := by
  cases h with
  | last => exact .last hu
  | one _ h => exact .one hu h
  | lastAny h | any h | again h => simp [hg] at h

/-- The segment of two stars. -/
def anySegment : List Token := [.anySequence, .anySequence]

@[simp] theorem isAnySegments_anySegment : isAnySegments anySegment = true := rfl

/-- What the tokens `us`, read after the tokens `before`, come to: after a `**`, they may lack
one. -/
def AssemblesAfter (before : List Token) (gs : List (List Token)) (us : List Token) : Prop :=
  if before.head? = some .anySegments then Assembles (anySegment :: gs) (.anySegments :: us)
  else Assembles gs us

/-- Segments that assemble as such do so after other tokens. -/
theorem Assembles.after {gs : List (List Token)} {us : List Token} (h : Assembles gs us)
    (before : List Token) : AssemblesAfter before gs us := by
  unfold AssemblesAfter
  split
  · exact .any rfl h
  · exact h

/-- After a token that is not `**` nothing is missing. -/
theorem AssemblesAfter.assembles {u : Token} {before : List Token} {gs : List (List Token)}
    {us : List Token} (h : AssemblesAfter (u :: before) gs us) (hu : u ≠ .anySegments) :
    Assembles gs us := by
  simpa [AssemblesAfter, hu] using h

/-- What the reader does when it comes to `**`. -/
def addAnySegments (tokens : List Token) : List Token :=
  match tokens with
  | .anySegments :: _ :: _ => tokens
  | _ => .anySegments :: tokens

/-- Tokens start with a recursive segment once one has been added in front. -/
theorem head?_addAnySegments (tokens : List Token) :
    (addAnySegments tokens).head? = some .anySegments := by
  unfold addAnySegments
  split <;> rfl

/-- Segments of stars in a row come to one `**`, whether the reader adds another or not. -/
theorem Assembles.after_anySegments {gs : List (List Token)} {us : List Token}
    (h : Assembles (anySegment :: gs) (.anySegments :: us)) (before : List Token) :
    ∃ us', (addAnySegments before).reverse ++ us = before.reverse ++ us' ∧
      AssemblesAfter before (anySegment :: gs) us' := by
  unfold addAnySegments
  split
  · exact ⟨us, rfl, by simpa [AssemblesAfter] using .again rfl rfl h⟩
  · exact ⟨.anySegments :: us, by simp, h.after _⟩

/-- Whether the reader is in the middle of a segment. -/
def IsInside (before : Option Char) : Prop := before.all (· == '/') = false

/-- What reading a spelling from some place on comes to. -/
structure ReadsFrom (before : Option Char) (tokens : List Token) (s : List Char) (ts : List Token) :
    Prop where
  /-- Stars that follow within a segment are no `**`. -/
  inside : IsInside before → ∀ g ∈ (segments s).head?, isAnySegments g = false
  assembles : ∃ us, ts = tokens.reverse ++ us ∧ AssemblesAfter tokens (segments s) us

section

variable {tokens : List Token} {s r : List Char} {u : Token} {ts : List Token}

/-- Reading a unit that is no slash. -/
theorem ReadsFrom.unit {before : Option Char} (h : ReadsFrom before (u :: tokens) r ts)
    (hb : IsInside before) (hs : units s = u :: units r) (hu : u ≠ .anySegments)
    (hc : u ≠ .char '/') (hany : ∀ g gs, segments r = g :: gs → isAnySegments (u :: g) = false)
    (before' : Option Char) : ReadsFrom before' tokens s ts := by
  obtain ⟨g, gs, hg⟩ := exists_segments_eq_cons r
  have hseg : segments s = (u :: g) :: gs := by rw [segments_of_units hs hc, hg]; rfl
  obtain ⟨us, rfl, ha⟩ := h.assembles
  have ha := ha.assembles hu
  rw [hg] at ha
  refine ⟨fun _ => ?_, u :: us, by simp, ?_⟩
  · rw [hseg]
    simpa using hany g gs hg
  · rw [hseg]
    exact (ha.cons (h.inside hb g (by simp [hg])) (hany g gs hg)).after _

/-- Reading a slash. -/
theorem ReadsFrom.slash (h : ReadsFrom (some '/') (.char '/' :: tokens) r ts)
    (before : Option Char) : ReadsFrom before tokens ('/' :: r) ts := by
  obtain ⟨us, rfl, ha⟩ := h.assembles
  have ha := ha.assembles (by simp)
  refine ⟨fun _ => by simp, .char '/' :: us, by simp, ?_⟩
  rw [segments_slash]
  exact Assembles.after (.one rfl ha) _

/-- Coming to `**` at the end. -/
theorem ReadsFrom.anySegments_nil {before : Option Char} (hb : ¬ IsInside before) :
    ReadsFrom before tokens ['*', '*'] (addAnySegments tokens).reverse := by
  refine ⟨fun h => absurd h hb, ?_⟩
  obtain ⟨us, he, ha⟩ := (Assembles.lastAny isAnySegments_anySegment).after_anySegments tokens
  exact ⟨us, by simpa using he, by simpa [segments, pieces, anySegment] using ha⟩

/-- Coming to `**` before a slash. -/
theorem ReadsFrom.anySegments_slash {before : Option Char} (hb : ¬ IsInside before)
    (h : ReadsFrom (some '/') (addAnySegments tokens) r ts) :
    ReadsFrom before tokens ('*' :: '*' :: '/' :: r) ts := by
  refine ⟨fun h => absurd h hb, ?_⟩
  obtain ⟨us, rfl, ha⟩ := h.assembles
  rw [AssemblesAfter, if_pos (head?_addAnySegments tokens)] at ha
  obtain ⟨us', he, ha⟩ := ha.after_anySegments tokens
  refine ⟨us', he, ?_⟩
  have hseg : segments ('*' :: '*' :: '/' :: r) = anySegment :: segments r := by
    rw [segments_of_units (units_star _) (by simp), segments_of_units (units_star _) (by simp),
      segments_slash]
    rfl
  rwa [hseg]

end

/-- Reading from any place on. -/
theorem readsFrom_of_tokensFrom {position : Nat} {before : Option Char} {tokens : List Token}
    {s : List Char} {ts : List Token} (h : tokensFrom position before tokens s = .ok ts) :
    ReadsFrom before tokens s ts := by
  fun_induction tokensFrom position before tokens s generalizing ts with
  | case1 position before tokens =>
    obtain rfl : tokens.reverse = ts := Except.ok.inj h
    exact ⟨fun _ => by simp, [], by simp, by simpa using (Assembles.last isAnySegments_nil).after _⟩
  | case2 position before tokens r ih =>
    exact (ih h).unit rfl (units_anyChar r) (by simp) (by simp)
      (fun _ _ _ => isAnySegments_cons_of_ne (by simp) _) before
  | case3 => simp at h
  | case4 position before tokens hb =>
    obtain rfl := Except.ok.inj h
    exact .anySegments_nil (by simp [IsInside, hb])
  | case5 position before tokens hb _ r =>
    rename_i ih
    exact .anySegments_slash (by simp [IsInside, hb]) (ih h)
  | case6 | case7 | case10 => simp at h
  | case8 position before tokens r _ hr ih =>
    refine (ih h).unit rfl (units_star r) (by simp) (by simp) (fun g gs hg => ?_) before
    -- A second star right after this one was the case before.
    refine isAnySegments_star_cons fun hh => ?_
    obtain ⟨g', rfl⟩ : ∃ g', g = .anySequence :: g' := by
      cases g <;> simp_all
    obtain ⟨r', rfl⟩ := eq_star_of_segments hg
    exact hr r' rfl
  | case9 position before tokens r b rest hs ih =>
    exact (ih h).unit rfl (units_bracket hs) (by simp) (by simp)
      (fun _ _ _ => isAnySegments_cons_of_ne (by simp) _) before
  | case11 position before tokens c r h₁ _ _ h₂ h₃ ih =>
    by_cases hc : c = '/'
    · subst hc
      exact (ih h).slash before
    · exact (ih h).unit (by simp [IsInside, hc]) (units_char h₁ h₂ h₃ r) (by simp) (by simp [hc])
        (fun _ _ _ => isAnySegments_cons_of_ne (by simp) _) before

/-- **What a spelling reads into is put together from its segments.** -/
theorem assembles_of_tokenise {s : List Char} {ts : List Token} (h : tokenise s = .ok ts) :
    Assembles (segments s) ts := by
  obtain ⟨us, rfl, ha⟩ := (readsFrom_of_tokensFrom h).assembles
  simpa [AssemblesAfter] using ha

end ImportLint.Glob

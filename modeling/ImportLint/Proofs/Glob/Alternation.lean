import ImportLint.Proofs.Glob.BraceLexeme
import ImportLint.Text.Pieces

/-!
# Brace alternation

The state that reads a pattern keeps the groups that are still open, and what becomes of an open
group is known only at the end. Here reading is taken apart again: from within a group, whatever
follows comes to more spellings for the current alternative, further alternatives and an end of the
group, after which reading goes on as if the group were one piece. So the spellings of a pattern
depend on those of any part of it as on a factor of a product, and a group may be written out
wherever it stands.
-/

namespace ImportLint.Glob

/-! ## Products of spellings -/

namespace Spellings

variable {w : List Char}

/-- The spellings of two parts in a row are those of the first continued by those of the second. -/
theorem mem_append {xs ys : Spellings} : w ∈ xs.append ys ↔ ∃ x ∈ xs, ∃ y ∈ ys, x ++ y = w := by
  simp [append]

/-- Of three parts in a row, the spellings do not depend on which two are put together first. -/
theorem append_assoc (xs ys zs : Spellings) :
    (xs.append ys).append zs = xs.append (ys.append zs) := by
  simp [append, List.flatMap_assoc, List.flatMap_map, List.map_flatMap, Function.comp_def,
    List.append_assoc]

/-- Continuing spellings with nothing leaves them. -/
@[simp] theorem append_empty (xs : Spellings) : xs.append [[]] = xs := by
  simp [append]

/-- Spellings that continue nothing are left. -/
@[simp] theorem empty_append (xs : Spellings) : Spellings.append [[]] xs = xs := by
  simp [append]

/-- The first of several parts is followed by the separator and the others. -/
theorem between_cons (sep : List Char) (xs : Spellings) {rest : List Spellings} (h : rest ≠ []) :
    between sep (xs :: rest) = xs.append (Spellings.append [sep] (between sep rest)) := by
  cases rest with
  | nil => exact absurd rfl h
  | cons ys rest => rfl

end Spellings

/-! ## Reading lexemes -/

namespace BraceState

/-- Read lexemes. -/
def run (st : BraceState) (ls : List BraceLexeme) : BraceState := ls.foldl next st

/-- Reading nothing leaves the state. -/
@[simp] theorem run_nil (st : BraceState) : st.run [] = st := rfl

/-- Lexemes are read one by one. -/
@[simp] theorem run_cons (st : BraceState) (l : BraceLexeme) (ls : List BraceLexeme) :
    st.run (l :: ls) = (st.next l).run ls := rfl

/-- Lexemes are read part by part. -/
@[simp] theorem run_append (st : BraceState) (ls ms : List BraceLexeme) :
    st.run (ls ++ ms) = (st.run ls).run ms := List.foldl_append

/-- The spellings of a group with the given alternatives, closed or left open. -/
def groupSpellings (closed : Bool) (alternatives : List Spellings) : Spellings :=
  if closed then
    match alternatives with
    | [xs] => Spellings.append [['\x7b']] (xs.append [['\x7d']])
    | _ => alternatives.flatten
  else Spellings.append [['\x7b']] (Spellings.between [','] alternatives)

/-- A closed group of two or more alternatives has the spellings of each. -/
theorem groupSpellings_true {alternatives : List Spellings} (h : 2 ≤ alternatives.length) :
    groupSpellings true alternatives = alternatives.flatten := by
  cases alternatives with
  | nil => rfl
  | cons xs alternatives =>
    cases alternatives with
    | nil => simp at h
    | cons ys alternatives => rfl

/-- The end of a group, in terms of its alternatives. -/
theorem next_close (before : Spellings) (finished : List Spellings) (gs : List OpenGroup)
    (cur : Spellings) : next ⟨⟨before, finished⟩ :: gs, cur⟩ .close =
      ⟨gs, before.append (groupSpellings true (finished.reverse ++ [cur]))⟩ := by
  cases finished with
  | nil => rfl
  | cons xs finished =>
    rw [groupSpellings_true (by simp)]
    simp [next]

/-- From within a group: what follows adds to the current alternative, brings further ones, and ends
the group or leaves it open. -/
theorem exists_groupSpellings (ls : List BraceLexeme) :
    ∃ (tail : Spellings) (more : List Spellings) (closed : Bool) (rest : List BraceLexeme),
      rest.length ≤ ls.length ∧ ∀ before finished gs cur,
        (run ⟨⟨before, finished⟩ :: gs, cur⟩ ls).finish =
          (run ⟨gs, before.append (groupSpellings closed
            (finished.reverse ++ cur.append tail :: more))⟩ rest).finish := by
  -- By induction on the length, since a group within the group is passed at once.
  induction hn : ls.length using Nat.strongRecOn generalizing ls with
  | ind n ih =>
    cases ls with
    | nil =>
      -- The pattern ends within the group, which is text then.
      refine ⟨[[]], [], false, [], by simp, fun before finished gs cur => ?_⟩
      simp [finish, groupSpellings]
    | cons l ls =>
      rw [List.length_cons] at hn
      obtain ⟨tail, more, closed, rest, hlen, h⟩ := ih ls.length (by omega) ls rfl
      cases l with
      | text s =>
        refine ⟨Spellings.append [s] tail, more, closed, rest,
          by omega, fun before finished gs cur => ?_⟩
        rw [run_cons, next, append, h, Spellings.append_assoc]
      | comma =>
        -- What adds to the next alternative does not add to this one.
        refine ⟨[[]], tail :: more, closed, rest, by omega, fun before finished gs cur => ?_⟩
        rw [run_cons, next, h]
        simp
      | close =>
        refine ⟨[[]], [], true, ls, by omega, fun before finished gs cur => ?_⟩
        rw [run_cons, next_close, Spellings.append_empty]
      | «open» =>
        -- The inner group ends first, and is one more piece of the alternative.
        obtain ⟨tail', more', closed', rest', hlen', h'⟩ := ih rest.length (by omega) rest rfl
        refine ⟨(groupSpellings closed (tail :: more)).append tail', more',
          closed', rest', by omega, fun before finished gs cur => ?_⟩
        rw [run_cons, next, h, h']
        simp [Spellings.append_assoc]

/-! ## Products in one factor -/

/-- Whether a function of spellings has, for a choice among several, just what it has for each. -/
def Distributes (F : Spellings → Spellings) : Prop :=
  ∀ (X : Spellings) (Xs : List Spellings), Xs ≠ [] → (∀ w, w ∈ X ↔ ∃ Y ∈ Xs, w ∈ Y) →
    ∀ w, w ∈ F X ↔ ∃ Y ∈ Xs, w ∈ F Y

variable {F G : Spellings → Spellings}

/-- Distribution is kept by composition. -/
theorem Distributes.comp (hG : Distributes G) (hF : Distributes F) :
    Distributes fun X => G (F X) := by
  intro X Xs hne h w
  rw [hG (F X) (Xs.map F) (by simpa using hne) fun v => by rw [hF X Xs hne h]; simp]
  simp

/-- Distribution is kept behind fixed spellings. -/
theorem Distributes.append_left (xs : Spellings) (hF : Distributes F) :
    Distributes fun X => xs.append (F X) := by
  intro X Xs hne h w
  simp only [Spellings.mem_append, hF X Xs hne h]
  constructor
  · rintro ⟨x, hx, y, ⟨Y, hY, hy⟩, rfl⟩
    exact ⟨Y, hY, x, hx, y, hy, rfl⟩
  · rintro ⟨Y, hY, x, hx, y, hy, rfl⟩
    exact ⟨x, hx, y, ⟨Y, hY, hy⟩, rfl⟩

/-- Distribution is kept before fixed spellings. -/
theorem Distributes.append_right (ys : Spellings) (hF : Distributes F) :
    Distributes fun X => (F X).append ys := by
  intro X Xs hne h w
  simp only [Spellings.mem_append, hF X Xs hne h]
  constructor
  · rintro ⟨x, ⟨Y, hY, hx⟩, y, hy, rfl⟩
    exact ⟨Y, hY, x, hx, y, hy, rfl⟩
  · rintro ⟨Y, hY, x, hx, y, hy, rfl⟩
    exact ⟨x, ⟨Y, hY, hx⟩, y, hy, rfl⟩

/-- A choice among more spellings than the function's. -/
theorem Distributes.choice (xs ys : Spellings) (hF : Distributes F) :
    Distributes fun X => xs ++ F X ++ ys := by
  intro X Xs hne h w
  obtain ⟨Y₀, hY₀⟩ := List.exists_mem_of_ne_nil Xs hne
  simp only [List.mem_append, hF X Xs hne h]
  constructor
  · rintro ((hw | ⟨Y, hY, hw⟩) | hw)
    · exact ⟨Y₀, hY₀, .inl (.inl hw)⟩
    · exact ⟨Y, hY, .inl (.inr hw)⟩
    · exact ⟨Y₀, hY₀, .inr hw⟩
  · rintro ⟨Y, hY, (hw | hw) | hw⟩
    · exact .inl (.inl hw)
    · exact .inl (.inr ⟨Y, hY, hw⟩)
    · exact .inr hw

/-- Spellings distribute over themselves. -/
theorem distributes_self : Distributes fun X => X := fun _ _ _ h w => h w

/-- Distribution is kept in one of several parts between separators. -/
theorem Distributes.between (sep : List Char) (front back : List Spellings) (hF : Distributes F) :
    Distributes fun X => Spellings.between sep (front ++ F X :: back) := by
  induction front with
  | nil =>
    cases back with
    | nil => exact hF
    | cons ys back => exact hF.append_right _
  | cons xs front ih =>
    simp only [List.cons_append,
      Spellings.between_cons sep xs (List.append_ne_nil_of_right_ne_nil front
      (List.cons_ne_nil _ back))]
    exact (ih.append_left _).append_left _

/-- Distribution is kept in one alternative of a group. -/
theorem Distributes.groupSpellings (closed : Bool) (front back : List Spellings)
    (hF : Distributes F) : Distributes fun X => groupSpellings closed (front ++ F X :: back) := by
  cases closed with
  | false => exact (hF.between _ front back).append_left _
  | true =>
    -- A group with one alternative keeps its braces, any other is the choice among them.
    by_cases h : front = [] ∧ back = []
    · obtain ⟨rfl, rfl⟩ := h
      exact (hF.append_right _).append_left _
    · have hlen : 1 ≤ front.length + back.length := by
        simp only [← List.length_eq_zero_iff] at h
        omega
      have he (X : Spellings) : BraceState.groupSpellings true (front ++ F X :: back) =
          front.flatten ++ F X ++ back.flatten := by
        rw [groupSpellings_true (by simp; omega)]
        simp
      simp only [he]
      exact hF.choice _ _

/-- What follows a part of a pattern treats its spellings one by one. -/
theorem distributes_run (ls : List BraceLexeme) (gs : List OpenGroup) :
    Distributes fun cur => (run ⟨gs, cur⟩ ls).finish := by
  induction gs generalizing ls with
  | cons g gs ih =>
    -- The innermost group ends somewhere, and the part is a factor within it.
    obtain ⟨tail, more, closed, rest, -, h⟩ := exists_groupSpellings ls
    simp only [h]
    exact (ih rest).comp
      (((distributes_self.append_right tail).groupSpellings closed _ more).append_left _)
  | nil =>
    -- By induction on the length, since a group is passed at once.
    induction hn : ls.length using Nat.strongRecOn generalizing ls with
    | ind n ih =>
      cases ls with
      | nil => exact distributes_self
      | cons l ls =>
        rw [List.length_cons] at hn
        have hls := ih ls.length (by omega) ls rfl
        cases l with
        | text s => exact hls.comp (distributes_self.append_right [s])
        | comma => exact hls.comp (distributes_self.append_right [[',']])
        | close => exact hls.comp (distributes_self.append_right [['\x7d']])
        | «open» =>
          obtain ⟨tail, more, closed, rest, hlen, h⟩ := exists_groupSpellings ls
          simp only [run_cons, next, h]
          exact (ih rest.length (by omega) rest rfl).comp (distributes_self.append_right _)

/-! ## Reading alternatives -/

/-- The groups of a state put upon others, after some spellings. -/
def aroundOnto (gs : List OpenGroup) (cur : Spellings) : List OpenGroup → List OpenGroup
  | [] => gs
  | [g] => ⟨cur.append g.before, g.finished⟩ :: gs
  | g :: g' :: rest => g :: aroundOnto gs cur (g' :: rest)

/-- A state put upon another, as if what it has read were read there. -/
def onto (gs : List OpenGroup) (cur : Spellings) (st : BraceState) : BraceState :=
  ⟨aroundOnto gs cur st.around, if st.around = [] then cur.append st.current else st.current⟩

/-- Whether lexemes, from within some groups of their own, close what they open and nothing else,
and have no comma outside their groups. -/
def isAlternative : Nat → List BraceLexeme → Bool
  | depth, [] => depth == 0
  | depth, .text _ :: ls => isAlternative depth ls
  | depth, .open :: ls => isAlternative (depth + 1) ls
  | depth, .comma :: ls => depth != 0 && isAlternative depth ls
  | depth, .close :: ls => depth != 0 && isAlternative (depth - 1) ls

variable (gs : List OpenGroup) (cur : Spellings)

/-- A lexeme read within a state put onto open groups does there what it does alone, unless it ends
the alternative. -/
theorem next_onto {st : BraceState} {l : BraceLexeme}
    (h : st.around = [] → l ≠ .comma ∧ l ≠ .close) :
    (onto gs cur st).next l = onto gs cur (st.next l) := by
  obtain ⟨around, current⟩ := st
  match around with
  | [] => cases l <;> simp_all [next, onto, aroundOnto, append, Spellings.append_assoc]
  | [⟨before, finished⟩] =>
    cases l with
    | close => simp [next_close, onto, aroundOnto, Spellings.append_assoc]
    | _ => simp [next, onto, aroundOnto, append]
  | ⟨before, finished⟩ :: g' :: rest =>
    cases l with
    | close => simp [next_close, onto, aroundOnto]
    | _ => simp [next, onto, aroundOnto, append]

/-- The lexemes of an alternative, read onto open groups, do there what they do alone, and close
what they open. -/
theorem run_onto (ls : List BraceLexeme) (st : BraceState)
    (h : isAlternative st.around.length ls = true) :
    (onto gs cur st).run ls = onto gs cur (st.run ls) ∧ (st.run ls).around = [] := by
  induction ls generalizing st with
  | nil => exact ⟨rfl, by simpa [isAlternative] using h⟩
  | cons l ls ih =>
    -- Outside its own groups an alternative has neither commas nor closing braces.
    have hl : st.around = [] → l ≠ .comma ∧ l ≠ .close := by
      intro he
      cases l <;> simp_all [isAlternative]
    rw [run_cons, run_cons, next_onto gs cur hl]
    refine ih _ ?_
    obtain ⟨around, current⟩ := st
    cases l with
    | text s => exact h
    | «open» => exact h
    | comma =>
      cases around with
      | nil => simp at hl
      | cons g around => simpa [isAlternative, next] using h
    | close =>
      cases around with
      | nil => simp at hl
      | cons g around => simpa [isAlternative, next_close g.before g.finished] using h

/-- The spellings of lexemes. -/
def spellingsOf (ls : List BraceLexeme) : Spellings := (start.run ls).finish

/-- The start put onto open groups is those groups. -/
@[simp] theorem onto_start : onto gs cur start = ⟨gs, cur⟩ := by simp [onto, start, aroundOnto]

/-- An alternative is read as its spellings, wherever it stands. -/
theorem run_alternative {ls : List BraceLexeme} (h : isAlternative 0 ls = true) :
    run ⟨gs, cur⟩ ls = ⟨gs, cur.append (spellingsOf ls)⟩ := by
  obtain ⟨hrun, haround⟩ := run_onto gs cur ls start h
  rw [← onto_start, hrun, onto, haround, spellingsOf, finish, haround, List.foldl_nil]
  rfl

/-- What is left of a group is read as its alternatives, and ends it. -/
theorem run_alternatives {alts : List (List BraceLexeme)} (hne : alts ≠ [])
    (halt : ∀ a ∈ alts, isAlternative 0 a = true) (finished : List Spellings)
    (rest : List BraceLexeme) :
    run ⟨⟨cur, finished⟩ :: gs, [[]]⟩ (joinPieces .comma alts ++ .close :: rest) =
      run ⟨gs, cur.append (groupSpellings true (finished.reverse ++ alts.map spellingsOf))⟩
        rest := by
  induction alts generalizing finished with
  | nil => exact absurd rfl hne
  | cons a alts ih =>
    have ha := run_alternative (⟨cur, finished⟩ :: gs) [[]] (halt a List.mem_cons_self)
    -- The last alternative is followed by the brace, the others by a comma.
    by_cases halts : alts = []
    · subst halts
      rw [joinPieces_singleton, run_append, ha, run_cons, next_close, Spellings.empty_append]
      rfl
    · rw [joinPieces_cons halts, List.append_assoc, run_append, ha,
        List.cons_append, run_cons, next]
      simp only []
      rw [ih halts fun x hx => halt x (List.mem_cons_of_mem _ hx)]
      simp

end BraceState

/-! ## Groups -/

/-- Whether a text can stand between the commas of a group: its braces are balanced, its commas
stand within groups, and it closes its classes. -/
structure IsAlternative (x : List Char) : Prop where
  balanced : BraceState.isAlternative 0 (braceLexemes x) = true
  closes : ClosesClasses x

/-- Whether a text is an alternative is decided by running over its lexemes. -/
instance (x : List Char) : Decidable (IsAlternative x) :=
  decidable_of_iff (BraceState.isAlternative 0 (braceLexemes x) = true ∧ ClosesClasses x)
    ⟨fun h => ⟨h.1, h.2⟩, fun h => ⟨h.balanced, h.closes⟩⟩

/-- A group with the given alternatives, as written. -/
def group (xs : List (List Char)) : List Char := '\x7b' :: (joinPieces ',' xs ++ ['\x7d'])

/-- A group reads as its alternatives with commas between them. -/
theorem braceLexemes_group {xs : List (List Char)} (hne : xs ≠ [])
    (hcloses : ∀ x ∈ xs, ClosesClasses x) (b : List Char) : braceLexemes (group xs ++ b) =
      .open :: (joinPieces .comma (xs.map braceLexemes) ++ .close :: braceLexemes b) := by
  have hrest : braceLexemes (joinPieces ',' xs ++ '\x7d' :: b) =
      joinPieces .comma (xs.map braceLexemes) ++ .close :: braceLexemes b := by
    induction xs with
    | nil => exact absurd rfl hne
    | cons x xs ih =>
      have hx := (hcloses x List.mem_cons_self).braceLexemes_append
      by_cases hxs : xs = []
      · subst hxs
        rw [joinPieces_singleton, hx, braceLexemes_close]
        rfl
      · rw [joinPieces_cons hxs, List.append_assoc, hx, List.cons_append, braceLexemes_comma,
          ih hxs fun y hy => hcloses y (List.mem_cons_of_mem _ hy), List.map_cons,
          joinPieces_cons (by simpa using hxs), List.append_assoc, List.cons_append]
  rw [group, List.cons_append, List.append_assoc, List.singleton_append, braceLexemes_open, hrest]

/-- A group within a pattern may be written out, wherever it stands. -/
theorem mem_spellings_group {a b : List Char} {xs : List (List Char)} (hlen : 2 ≤ xs.length)
    (halt : ∀ x ∈ xs, IsAlternative x) (hout : isOutside a.length (a ++ group xs ++ b) = true)
    (w : List Char) :
    w ∈ spellings (a ++ group xs ++ b) ↔ ∃ x ∈ xs, w ∈ spellings (a ++ x ++ b) := by
  have hne : xs ≠ [] := by
    rintro rfl
    simp at hlen
  have hgroup : group xs ++ b = '\x7b' :: (joinPieces ',' xs ++ '\x7d' :: b) := by simp [group]
  rw [List.append_assoc, hgroup] at hout
  obtain ⟨ls, hls⟩ := exists_lexemes_of_isOutside hout
  -- Everything before the group reads alike, and leaves the same state.
  obtain ⟨gs, cur, hst⟩ : ∃ gs cur, BraceState.start.run ls = ⟨gs, cur⟩ := ⟨_, _, rfl⟩
  have hwhole : spellings (a ++ group xs ++ b) =
      (BraceState.run ⟨gs, cur.append (xs.map spellings).flatten⟩ (braceLexemes b)).finish := by
    have hbalanced : ∀ ls ∈ xs.map braceLexemes, BraceState.isAlternative 0 ls = true := by
      simpa using fun x hx => (halt x hx).balanced
    have hgroup' := braceLexemes_group hne (fun x hx => (halt x hx).closes) b
    rw [hgroup] at hgroup'
    show (BraceState.start.run _).finish = _
    rw [List.append_assoc, hgroup, hls _ (by simp), BraceState.run_append, hst, hgroup',
      BraceState.run_cons, BraceState.next,
      BraceState.run_alternatives gs cur (by simpa using hne) hbalanced,
      BraceState.groupSpellings_true (by simpa using hlen), List.map_map]
    rfl
  have heach (x : List Char) (hx : x ∈ xs) : spellings (a ++ x ++ b) =
      (BraceState.run ⟨gs, cur.append (spellings x)⟩ (braceLexemes b)).finish := by
    have hclose : ']' ∈ x ++ b → ']' ∈ joinPieces ',' xs ++ '\x7d' :: b := by
      simp only [List.mem_append, List.mem_cons]
      rintro (h | h)
      · exact .inl (mem_joinPieces h hx)
      · exact .inr (.inr h)
    show (BraceState.start.run _).finish = _
    rw [List.append_assoc, hls _ hclose, BraceState.run_append, hst,
      (halt x hx).closes.braceLexemes_append, BraceState.run_append,
      BraceState.run_alternative gs cur (halt x hx).balanced]
    rfl
  rw [hwhole, ((BraceState.distributes_run (braceLexemes b) gs).comp
    (BraceState.distributes_self.append_left cur)) _ (xs.map spellings) (by
    simpa using hne) (by simp)]
  simp only [List.mem_map, exists_exists_and_eq_and]
  constructor
  · rintro ⟨x, hx, hw⟩
    exact ⟨x, hx, by rwa [heach x hx]⟩
  · rintro ⟨x, hx, hw⟩
    exact ⟨x, hx, by rwa [heach x hx] at hw⟩

end ImportLint.Glob

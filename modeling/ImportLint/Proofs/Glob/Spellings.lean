import ImportLint.Proofs.Glob.Alternation
import Mathlib.Data.List.Flatten

/-!
# What spellings are made of

A spelling leaves out some of what the pattern says and adds nothing: it is made of lexemes of the
pattern, in their order. What it leaves out closes no class, so each lexeme is one of the spelling,
too: the classes of a spelling are classes of the pattern, and end at the same places.
-/

namespace ImportLint.Glob

/-- Spellings are **made of** lexemes if each is what some of these stand for, in their order. -/
def MadeOf (ls : List BraceLexeme) (xs : Spellings) : Prop :=
  ∀ x ∈ xs, ∃ ks : List BraceLexeme, ks.Sublist ls ∧ ks.flatMap BraceLexeme.chars = x

section

variable {ls ms : List BraceLexeme} {xs ys : Spellings}

/-- What is made of some lexemes is made of more. -/
theorem MadeOf.mono (h : MadeOf ls xs) (hls : ls.Sublist ms) : MadeOf ms xs := by
  intro x hx
  obtain ⟨ks, hks, rfl⟩ := h x hx
  exact ⟨ks, hks.trans hls, rfl⟩

/-- A lexeme makes its characters. -/
theorem madeOf_chars (l : BraceLexeme) : MadeOf [l] [l.chars] := by
  intro x hx
  obtain rfl := List.mem_singleton.1 hx
  exact ⟨[l], .refl _, by simp⟩

/-- No lexemes make the empty spelling. -/
theorem madeOf_empty : MadeOf [] [[]] := by
  intro x hx
  obtain rfl := List.mem_singleton.1 hx
  exact ⟨[], .refl _, rfl⟩

/-- Pieces that follow one another are made of lexemes that do. -/
theorem MadeOf.append (h : MadeOf ls xs) (h' : MadeOf ms ys) :
    MadeOf (ls ++ ms) (xs.append ys) := by
  intro w hw
  obtain ⟨x, hx, y, hy, rfl⟩ := Spellings.mem_append.1 hw
  obtain ⟨ks, hks, rfl⟩ := h x hx
  obtain ⟨ks', hks', rfl⟩ := h' y hy
  exact ⟨ks ++ ks', hks.append hks', List.flatMap_append⟩

end

/-! ## Open groups -/

/-- The finished alternatives of a group, the latest first, are made of lexemes that come to a comma
each. -/
inductive AlternativesMadeOf : List BraceLexeme → List Spellings → Prop
  | nil : AlternativesMadeOf [] []
  | next {ls ms xs finished} : AlternativesMadeOf ls finished → MadeOf ms xs →
      AlternativesMadeOf (ls ++ (ms ++ [.comma])) (xs :: finished)

section

variable {ls ms : List BraceLexeme} {xs : Spellings} {finished : List Spellings}

/-- The spellings of an alternative are made of the lexemes read. -/
theorem AlternativesMadeOf.madeOf (h : AlternativesMadeOf ls finished) (hxs : xs ∈ finished) :
    MadeOf ls xs := by
  induction h with
  | nil => cases hxs
  | next _ hlast ih =>
    rcases List.mem_cons.1 hxs with rfl | hxs
    · exact hlast.mono ((List.sublist_append_left _ _).trans (List.sublist_append_right _ _))
    · exact (ih hxs).mono (List.sublist_append_left _ _)

/-- The last two of several pieces as one. -/
theorem between_concat_concat (sep : List Char) (front : List Spellings) (xs ys : Spellings) :
    Spellings.between sep (front ++ [xs] ++ [ys]) =
      Spellings.between sep (front ++ [xs.append (Spellings.append [sep] ys)]) := by
  induction front with
  | nil => rfl
  | cons zs front ih =>
    rw [List.cons_append, List.cons_append, List.cons_append,
      Spellings.between_cons sep zs (by simp), Spellings.between_cons sep zs (by simp), ih]

/-- A group left open is all of its lexemes. -/
theorem AlternativesMadeOf.between (h : AlternativesMadeOf ls finished) (hxs : MadeOf ms xs) :
    MadeOf (ls ++ ms) (Spellings.between [','] (finished.reverse ++ [xs])) := by
  induction h generalizing ms xs with
  | nil => exact hxs
  | next _ hlast ih =>
    rw [List.reverse_cons, between_concat_concat, List.append_assoc, List.append_assoc]
    exact ih (hlast.append ((madeOf_chars .comma).append hxs))

end

namespace BraceState

/-- The lexemes that a state has read: what comes before the innermost open group, the brace that
opens it, its finished alternatives and what it has read since. -/
inductive HasRead : List BraceLexeme → BraceState → Prop
  | outside {ls cur} : MadeOf ls cur → HasRead ls ⟨[], cur⟩
  | within {outer alternatives inner before finished gs cur} : HasRead outer ⟨gs, before⟩ →
      AlternativesMadeOf alternatives finished → MadeOf inner cur →
      HasRead (outer ++ .open :: (alternatives ++ inner)) ⟨⟨before, finished⟩ :: gs, cur⟩

variable {ls ms : List BraceLexeme} {gs : List OpenGroup} {cur xs : Spellings} {st : BraceState}

/-- One more piece. -/
theorem HasRead.append (h : HasRead ls ⟨gs, cur⟩) (hxs : MadeOf ms xs) :
    HasRead (ls ++ ms) ⟨gs, cur.append xs⟩ := by
  cases h with
  | outside hcur => exact .outside (hcur.append hxs)
  | within houter halternatives hcur =>
    rw [List.append_assoc, List.cons_append, List.append_assoc]
    exact .within houter halternatives (hcur.append hxs)

/-- A group that is closed is made of its lexemes, braces and all. -/
theorem madeOf_groupSpellings {finished : List Spellings} (h : AlternativesMadeOf ls finished)
    (hcur : MadeOf ms cur) : MadeOf (.open :: (ls ++ ms) ++ [.close])
      (groupSpellings true (finished.reverse ++ [cur])) := by
  cases h with
  | nil => exact (madeOf_chars .open).append (hcur.append (madeOf_chars .close))
  | next hfinished hlast =>
    rw [groupSpellings_true (by simp)]
    have hbraces (ks : List BraceLexeme) : ks.Sublist (.open :: ks ++ [.close]) :=
      (List.sublist_cons_self _ _).trans (List.sublist_append_left _ _)
    intro w hw
    simp only [List.mem_flatten, List.mem_append, List.mem_reverse, List.mem_singleton] at hw
    obtain ⟨zs, hzs | rfl, hw⟩ := hw
    · have hmade := (AlternativesMadeOf.next hfinished hlast).madeOf (by simpa [or_comm] using hzs)
      exact (hmade.mono (List.sublist_append_left _ ms)).mono (hbraces _) w hw
    · exact (hcur.mono (List.sublist_append_right _ ms)).mono (hbraces _) w hw

/-- **Reading a lexeme** keeps what the state has read, and adds the lexeme. -/
theorem HasRead.next (h : HasRead ls st) (l : BraceLexeme) : HasRead (ls ++ [l]) (st.next l) := by
  obtain ⟨gs, cur⟩ := st
  cases l with
  | text s => exact h.append (madeOf_chars (.text s))
  | «open» => exact .within h .nil madeOf_empty
  | comma =>
    cases h with
    | outside hcur => exact .outside (hcur.append (madeOf_chars .comma))
    | @within outer alternatives inner _ _ _ _ houter halternatives hcur =>
      -- What was read since the brace or the last comma is one more finished alternative.
      have hread := HasRead.within houter (halternatives.next hcur) madeOf_empty
      simpa [BraceState.next] using hread
  | close =>
    cases h with
    | outside hcur => exact .outside (hcur.append (madeOf_chars .close))
    | within houter halternatives hcur =>
      rw [next_close, List.append_assoc]
      exact houter.append (madeOf_groupSpellings halternatives hcur)

/-- A state that has read some lexemes has read more after running over them. -/
theorem HasRead.run (h : HasRead ls st) : HasRead (ls ++ ms) (st.run ms) := by
  induction ms generalizing ls st with
  | nil => simpa using h
  | cons l ms ih =>
    rw [run_cons, List.append_cons]
    exact ih (h.next l)

/-- Where the pattern ends, its spellings are made of what was read. -/
theorem HasRead.finish (h : HasRead ls st) : MadeOf ls st.finish := by
  obtain ⟨gs, cur⟩ := st
  -- On the open groups: the innermost is left open, so it is text of what it stands in.
  induction gs generalizing ls cur with
  | nil =>
    cases h with
    | outside hcur => exact hcur
  | cons g gs ih =>
    cases h with
    | within houter halternatives hcur =>
      exact ih _ (houter.append ((madeOf_chars .open).append (halternatives.between hcur)))

end BraceState

/-- **Spellings are made of the lexemes of the pattern.** -/
theorem madeOf_spellings (s : List Char) : MadeOf (braceLexemes s) (spellings s) :=
  (BraceState.HasRead.outside madeOf_empty).run.finish

/-! ## Lexemes of spellings -/

/-- Text that leaves out some of what follows a bracket that opens no class does not close one
either. -/
theorem Bracket.split_eq_none_of_sublist {r w : List Char} (h : split r = none) (hw : w.Sublist r) :
    split w = none := by
  rw [split_eq_none_iff] at h ⊢
  -- A closing bracket after the first member would be one in the whole text, too.
  by_cases hbang : r.head? = some '!'
  · obtain ⟨r, rfl⟩ : ∃ r', r = '!' :: r' := by cases r <;> simp_all
    rw [if_pos hbang, List.tail_cons] at h
    rcases List.sublist_cons_iff.1 hw with hrest | ⟨w, rfl, hrest⟩
    · have htail : ']' ∉ w.tail := fun hmem => h (hrest.tail.subset hmem)
      split
      · exact fun hmem => htail (List.mem_of_mem_tail hmem)
      · exact htail
    · rw [List.head?_cons, if_pos rfl, List.tail_cons]
      exact fun hmem => h (hrest.tail.subset hmem)
  · rw [if_neg hbang] at h
    have htail : ']' ∉ w.tail := fun hmem => h (hw.tail.subset hmem)
    split
    · exact fun hmem => htail (List.mem_of_mem_tail hmem)
    · exact htail

/-- **Lexemes stay lexemes** in what some of them stand for. -/
theorem braceLexemes_flatMap_chars {s : List Char} {ks : List BraceLexeme}
    (h : ks.Sublist (braceLexemes s)) : braceLexemes (ks.flatMap BraceLexeme.chars) = ks := by
  -- The first lexeme of the text is left out, or it comes first again.
  induction s using lexing_induction generalizing ks with
  | nil =>
    obtain rfl : ks = [] := by simpa using h
    simp
  | cons c r hc ih =>
    rw [braceLexemes_cons hc] at h
    rcases List.sublist_cons_iff.1 h with hrest | ⟨ks, rfl, hrest⟩
    · exact ih hrest
    · rw [List.flatMap_cons, BraceLexeme.chars_ofChar, List.singleton_append,
        braceLexemes_cons hc, ih hrest]
  | bracket r b rest hs ih =>
    rw [braceLexemes_bracket hs] at h
    rcases List.sublist_cons_iff.1 h with hrest | ⟨ks, rfl, hrest⟩
    · exact ih hrest
    · rw [List.flatMap_cons, BraceLexeme.chars, Bracket.text_eq, List.cons_append,
        braceLexemes_bracket (Bracket.split_inner_append hs _), ih hrest, Bracket.text_eq]
  | openBracket r hs ih =>
    rw [braceLexemes_openBracket hs] at h
    rcases List.sublist_cons_iff.1 h with hrest | ⟨ks, rfl, hrest⟩
    · exact ih hrest
    · -- What could close a class after the bracket would have closed one before.
      have hsub : (ks.flatMap BraceLexeme.chars).Sublist r := by
        rw [← flatMap_chars_braceLexemes r]
        exact hrest.flatMap _
      rw [List.flatMap_cons, BraceLexeme.chars, List.singleton_append,
        braceLexemes_openBracket (Bracket.split_eq_none_of_sublist hs hsub), ih hrest]

end ImportLint.Glob

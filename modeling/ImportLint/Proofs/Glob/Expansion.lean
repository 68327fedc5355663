import ImportLint.Proofs.Glob.Product
import ImportLint.Proofs.Glob.Spellings

/-!
# One group at a time

The spellings of a pattern can be found without open groups to keep: find the first brace that opens
a group with a comma of its own, put each alternative in the place of the group, and start over.
Whether a brace opens such a group depends on what follows it only by the groups that end there, so
writing out a group makes no other one and breaks none. Each step makes the pattern shorter, and
what is left at the end has nothing more to write out.
-/

namespace ImportLint.Glob

/-- The pieces with text after the last of them. -/
theorem Spellings.between_append (sep : List Char) (front : List Spellings) (xs ys : Spellings) :
    between sep (front ++ [xs.append ys]) = (between sep (front ++ [xs])).append ys := by
  induction front with
  | nil => rfl
  | cons zs front ih =>
    rw [List.cons_append, List.cons_append, between_cons sep zs (by simp),
      between_cons sep zs (by simp), ih, append_assoc, append_assoc]

namespace BraceState

/-! ## Groups ahead -/

/-- How many commas of its own a group still has, read from within it and some groups in it; `none`
if it is left open. -/
def ownCommas? : Nat → List BraceLexeme → Option Nat
  | _, [] => none
  | depth, .text _ :: ls => ownCommas? depth ls
  | depth, .open :: ls => ownCommas? (depth + 1) ls
  | 0, .comma :: ls => (ownCommas? 0 ls).map (· + 1)
  | depth + 1, .comma :: ls => ownCommas? (depth + 1) ls
  | 0, .close :: _ => some 0
  | depth + 1, .close :: ls => ownCommas? depth ls

/-- Whether a brace before these lexemes opens a group with a comma of its own. -/
def opensGroup (ls : List BraceLexeme) : Bool := (ownCommas? 0 ls).any (0 < ·)

section

variable {a ls ms : List BraceLexeme} {alts : List (List BraceLexeme)} {depth : Nat}

/-- An alternative ends no group around it and brings it no comma. -/
theorem ownCommas?_append (h : isAlternative depth a = true) (e : Nat) (rest : List BraceLexeme) :
    ownCommas? (depth + e) (a ++ rest) = ownCommas? e rest := by
  induction a generalizing depth with
  | nil =>
    obtain rfl : depth = 0 := by simpa [isAlternative] using h
    rw [Nat.zero_add, List.nil_append]
  | cons l a ih =>
    rw [List.cons_append]
    cases l with
    | text s => exact ih h
    | «open» =>
      rw [ownCommas?, Nat.add_right_comm]
      exact ih h
    | comma =>
      obtain _ | depth := depth
      · cases h
      · rw [Nat.add_right_comm, ownCommas?, Nat.add_right_comm]
        exact ih (by simpa [isAlternative] using h)
    | close =>
      obtain _ | depth := depth
      · cases h
      · rw [Nat.add_right_comm, ownCommas?]
        exact ih (by simpa [isAlternative] using h)

/-- From within a group with the given alternatives ahead. -/
theorem ownCommas?_alternatives (hne : alts ≠ []) (halt : ∀ a ∈ alts, isAlternative 0 a = true)
    (rest : List BraceLexeme) :
    ownCommas? 0 (joinPieces .comma alts ++ .close :: rest) = some (alts.length - 1) ∧
      ∀ e, ownCommas? (e + 1) (joinPieces .comma alts ++ .close :: rest) = ownCommas? e rest := by
  induction alts with
  | nil => exact absurd rfl hne
  | cons a alts ih =>
    have ha (e : Nat) (rest : List BraceLexeme) : ownCommas? e (a ++ rest) = ownCommas? e rest := by
      have happend := ownCommas?_append (halt a List.mem_cons_self) e rest
      rwa [Nat.zero_add] at happend
    by_cases halts : alts = []
    · subst halts
      simp only [joinPieces_singleton, ha, ownCommas?]
      exact ⟨rfl, fun _ => trivial⟩
    · obtain ⟨hzero, hsucc⟩ := ih halts fun x hx => halt x (List.mem_cons_of_mem _ hx)
      have hpos : 0 < alts.length := List.length_pos_iff.2 halts
      simp only [joinPieces_cons halts, List.append_assoc, List.cons_append, ha,
        ownCommas?, hzero, hsucc]
      exact ⟨by simp [List.length_cons]; omega, fun _ => trivial⟩

/-- Up to the next comma or the end of a group there is an alternative. -/
theorem exists_alternative_of_ownCommas? {n : Nat} (h : ownCommas? depth ls = some n) :
    ∃ a rest, isAlternative depth a = true ∧ (ls = a ++ .close :: rest ∧ n = 0 ∨
      ∃ m, ls = a ++ .comma :: rest ∧ n = m + 1 ∧ ownCommas? 0 rest = some m) := by
  induction ls generalizing depth with
  | nil => cases depth <;> cases h
  | cons l ls ih =>
    -- A lexeme that ends nothing is one more of the alternative.
    have hcons (inner : Nat) (hi : ownCommas? inner ls = some n)
        (hl : ∀ a, isAlternative inner a = true → isAlternative depth (l :: a) = true) :
        ∃ a rest, isAlternative depth a = true ∧ (l :: ls = a ++ .close :: rest ∧ n = 0 ∨
          ∃ m, l :: ls = a ++ .comma :: rest ∧ n = m + 1 ∧ ownCommas? 0 rest = some m) := by
      obtain ⟨a, rest, ha, ⟨rfl, hn⟩ | ⟨m, rfl, hn⟩⟩ := ih hi
      · exact ⟨l :: a, rest, hl a ha, .inl ⟨rfl, hn⟩⟩
      · exact ⟨l :: a, rest, hl a ha, .inr ⟨m, rfl, hn⟩⟩
    cases l with
    | text s => exact hcons depth (by cases depth <;> exact h) fun _ ha => ha
    | «open» => exact hcons (depth + 1) (by cases depth <;> exact h) fun _ ha => ha
    | comma =>
      obtain _ | depth := depth
      · obtain ⟨m, hm, rfl⟩ := Option.map_eq_some_iff.1 h
        exact ⟨[], ls, rfl, .inr ⟨m, rfl, rfl, hm⟩⟩
      · exact hcons (depth + 1) h fun _ ha => by simpa [isAlternative] using ha
    | close =>
      obtain _ | depth := depth
      · exact ⟨[], ls, rfl, .inl ⟨rfl, (Option.some.inj h).symm⟩⟩
      · exact hcons depth h fun _ ha => by simpa [isAlternative] using ha

/-- A group that is closed has alternatives, one more than commas of its own. -/
theorem exists_alternatives_of_ownCommas? {n : Nat} (h : ownCommas? 0 ls = some n) :
    ∃ alts rest, ls = joinPieces .comma alts ++ .close :: rest ∧ alts.length = n + 1 ∧
      ∀ a ∈ alts, isAlternative 0 a = true := by
  induction n generalizing ls with
  | zero =>
    obtain ⟨a, rest, ha, ⟨rfl, -⟩ | ⟨m, -, hm, -⟩⟩ := exists_alternative_of_ownCommas? h
    · exact ⟨[a], rest, rfl, rfl, by simpa using ha⟩
    · cases hm
  | succ n ih =>
    obtain ⟨a, rest, ha, ⟨-, hm⟩ | ⟨m, rfl, hm, hrest⟩⟩ := exists_alternative_of_ownCommas? h
    · cases hm
    · obtain rfl : n = m := Nat.succ.inj hm
      obtain ⟨alts, rest', rfl, hlen, halt⟩ := ih hrest
      have hne : alts ≠ [] := by
        rintro rfl
        cases hlen
      refine ⟨a :: alts, rest', ?_, by rw [List.length_cons, hlen], ?_⟩
      · rw [joinPieces_cons hne, List.append_assoc, List.cons_append]
      · simpa using ⟨ha, halt⟩

/-- What follows some lexemes counts for the groups around them only by its own commas and ends. -/
theorem ownCommas?_congr (h : ∀ e, ownCommas? e ls = ownCommas? e ms)
    (v : List BraceLexeme) (e : Nat) : ownCommas? e (v ++ ls) = ownCommas? e (v ++ ms) := by
  induction v generalizing e with
  | nil => exact h e
  | cons l v ih => cases l <;> cases e <;> simp [ownCommas?, ih]

end

/-! ## Braces that are text -/

/-- A group that is left open is text up to its last comma. -/
theorem finish_run_onto_open {st : BraceState} {ls : List BraceLexeme}
    (h : ownCommas? st.around.length ls = none) (finished : List Spellings) (cur : Spellings) :
    (run (onto [⟨[[]], finished⟩] cur st) ls).finish =
      (run (onto [] (Spellings.append [['\x7b']]
        (Spellings.between [','] (finished.reverse ++ [cur]))) st) ls).finish := by
  induction ls generalizing st finished cur with
  | nil =>
    rw [run_nil, run_nil, finish_onto, finish_onto]
    simp [finish, Spellings.between_append, Spellings.append_assoc]
  | cons l ls ih =>
    rw [run_cons, run_cons, next_onto_nil]
    by_cases hl : st.around = [] → l ≠ .comma ∧ l ≠ .close
    · rw [next_onto _ _ hl]
      refine ih ?_ finished cur
      obtain ⟨around, current⟩ := st
      cases l with
      | text s => cases around <;> exact h
      | «open» => cases around <;> exact h
      | comma =>
        cases around with
        | nil => simp at hl
        | cons g around => exact h
      | close =>
        cases around with
        | nil => simp at hl
        | cons g around => simpa [ownCommas?, next_close g.before g.finished] using h
    · obtain ⟨around, current⟩ := st
      obtain ⟨rfl, hl⟩ := Classical.not_imp.1 hl
      cases l with
      | text s => simp at hl
      | «open» => simp at hl
      | close => cases h
      | comma =>
        -- One more alternative is finished; as text it is followed by the comma.
        have hls : ownCommas? start.around.length ls = none := by
          simpa [ownCommas?, start] using h
        have hnext := ih hls (cur.append current :: finished) [[]]
        rw [onto_start, onto_start] at hnext
        simp only [onto, aroundOnto, next, append, if_pos]
        rw [hnext, List.reverse_cons, between_concat_concat, Spellings.append_empty,
          Spellings.append_assoc, Spellings.between_append, Spellings.append_assoc]

/-- A lexeme that opens no group stands in front of every spelling. -/
theorem spellingsOf_cons_of_ne {l : BraceLexeme} (h : l ≠ .open) (ls : List BraceLexeme) :
    spellingsOf (l :: ls) = Spellings.append [l.chars] (spellingsOf ls) := by
  have hl : start.next l = ⟨[], [l.chars]⟩ := by
    cases l with
    | «open» => exact absurd rfl h
    | _ => rfl
  rw [spellingsOf, run_cons, hl, finish_run]

/-- **A lexeme is a factor of its own**, unless it opens a group with a comma of its own. -/
theorem spellingsOf_cons {l : BraceLexeme} {ls : List BraceLexeme}
    (h : l = .open → opensGroup ls = false) :
    spellingsOf (l :: ls) = Spellings.append [l.chars] (spellingsOf ls) := by
  by_cases hl : l = .open
  · subst hl
    have hopen : start.next .open = ⟨[⟨[[]], []⟩], [[]]⟩ := rfl
    rw [spellingsOf, run_cons, hopen]
    cases hcommas : ownCommas? 0 ls with
    | none =>
      have hstart : ownCommas? start.around.length ls = none := hcommas
      rw [← onto_start, finish_run_onto_open hstart, onto_start, finish_run]
      rfl
    | some n =>
      obtain rfl : n = 0 := by
        have hn := h rfl
        simpa [opensGroup, hcommas] using hn
      -- The group has one alternative, and keeps its braces.
      obtain ⟨alts, rest, rfl, hlen, halt⟩ := exists_alternatives_of_ownCommas? hcommas
      obtain ⟨a, rfl⟩ := List.length_eq_one_iff.1 hlen
      rw [run_alternatives [] [[]] (by simp) halt [] rest, finish_run, joinPieces_singleton,
        spellingsOf_append (isBalanced_of_isAlternative (halt a List.mem_cons_self)),
        spellingsOf_cons_of_ne (by simp)]
      simp [groupSpellings, BraceLexeme.chars, Spellings.append_assoc]
  · exact spellingsOf_cons_of_ne hl ls

/-! ## The first group -/

/-- Lexemes are **flat** before others if none of their braces opens a group with a comma of its
own. -/
inductive IsFlat (after : List BraceLexeme) : List BraceLexeme → Prop
  | nil : IsFlat after []
  | cons {l ls} : (l = .open → opensGroup (ls ++ after) = false) → IsFlat after ls →
      IsFlat after (l :: ls)

section

variable {ls ms before rest : List BraceLexeme} {alts : List (List BraceLexeme)}

/-- Whether lexemes are flat depends only on the groups that what follows them closes. -/
theorem IsFlat.congr (h : IsFlat ls before) (he : ∀ e, ownCommas? e ls = ownCommas? e ms) :
    IsFlat ms before := by
  induction h with
  | nil => exact .nil
  | cons hl _ ih =>
    refine .cons (fun hopen => ?_) ih
    rw [← hl hopen, opensGroup, opensGroup, ownCommas?_congr he]

/-- Plain lexemes are read as what they stand for. -/
theorem IsFlat.spellingsOf_append (h : IsFlat ls before) :
    spellingsOf (before ++ ls) = Spellings.append [before.flatMap BraceLexeme.chars]
      (spellingsOf ls) := by
  induction h with
  | nil => exact (Spellings.empty_append _).symm
  | cons hl _ ih =>
    rw [List.cons_append, spellingsOf_cons hl, ih, ← Spellings.append_assoc, List.flatMap_cons]
    rfl

/-- The **first group** of lexemes: its alternatives, of which there are several, what stands before
it, which is flat, and what stands after it. -/
structure IsFirstGroup (ls before : List BraceLexeme) (alts : List (List BraceLexeme))
    (rest : List BraceLexeme) : Prop where
  eq : ls = before ++ .open :: (joinPieces .comma alts ++ .close :: rest)
  two : 2 ≤ alts.length
  alternatives : ∀ a ∈ alts, isAlternative 0 a = true
  flat : IsFlat (.open :: (joinPieces .comma alts ++ .close :: rest)) before

/-- Lexemes are flat, or there is a first group among them. -/
theorem flat_or_firstGroup (ls : List BraceLexeme) :
    IsFlat [] ls ∨ ∃ before alts rest, IsFirstGroup ls before alts rest := by
  induction ls with
  | nil => exact .inl .nil
  | cons l ls ih =>
    by_cases hl : l = .open → opensGroup ls = false
    · rcases ih with hflat | ⟨before, alts, rest, rfl, htwo, halt, hflat⟩
      · exact .inl (.cons (by rwa [List.append_nil]) hflat)
      · exact .inr ⟨l :: before, alts, rest, rfl, htwo, halt, .cons hl hflat⟩
    · obtain ⟨rfl, hopens⟩ := Classical.not_imp.1 hl
      obtain ⟨n, hcommas, hn⟩ : ∃ n, ownCommas? 0 ls = some n ∧ 0 < n := by
        simpa [opensGroup, Option.any_eq_true] using hopens
      obtain ⟨alts, rest, rfl, hlen, halt⟩ := exists_alternatives_of_ownCommas? hcommas
      exact .inr ⟨[], alts, rest, rfl, by omega, halt, .nil⟩

/-- A group has alternatives. -/
theorem IsFirstGroup.alternatives_ne_nil (h : IsFirstGroup ls before alts rest) : alts ≠ [] := by
  rintro rfl
  exact absurd h.two (by decide)

/-- **Writing out the first group** gives the spellings, those of each alternative in turn. -/
theorem IsFirstGroup.spellingsOf_eq (h : IsFirstGroup ls before alts rest) :
    spellingsOf ls = alts.flatMap fun a => spellingsOf (before ++ (a ++ rest)) := by
  have hgroup (e : Nat) : ownCommas? e (.open :: (joinPieces .comma alts ++ .close :: rest)) =
      ownCommas? e rest := by
    rw [ownCommas?]
    exact (ownCommas?_alternatives h.alternatives_ne_nil h.alternatives rest).2 e
  -- What stands before the group is flat before each alternative, too, for that ends no group
  -- around it.
  have hpart (a : List BraceLexeme) (ha : a ∈ alts) : spellingsOf (before ++ (a ++ rest)) =
      Spellings.append [before.flatMap BraceLexeme.chars]
        ((spellingsOf a).append (spellingsOf rest)) := by
    have hflat : IsFlat (a ++ rest) before := by
      refine h.flat.congr fun e => ?_
      have happend := ownCommas?_append (h.alternatives a ha) e rest
      rw [Nat.zero_add] at happend
      rw [hgroup, happend]
    rw [hflat.spellingsOf_append,
      spellingsOf_append (isBalanced_of_isAlternative (h.alternatives a ha))]
  rw [List.flatMap_def, List.map_congr_left hpart, ← List.flatMap_def, h.eq,
    h.flat.spellingsOf_append, spellingsOf_group h.two h.alternatives]
  simp [Spellings.append, List.flatMap_assoc, List.map_flatMap]

end

end BraceState

/-! ## Patterns -/

open BraceState

/-- The texts with one of the alternatives each between what stands before and after. -/
def parts (before : List BraceLexeme) (alts : List (List BraceLexeme)) (rest : List BraceLexeme) :
    List (List Char) :=
  alts.map fun a => (before ++ (a ++ rest)).flatMap BraceLexeme.chars

/-- A flat text is its only spelling. -/
theorem spellings_of_isFlat {s : List Char} (h : IsFlat [] (braceLexemes s)) :
    spellings s = [s] := by
  have happend := h.spellingsOf_append
  rw [List.append_nil, flatMap_chars_braceLexemes] at happend
  show spellingsOf (braceLexemes s) = [s]
  rw [happend]
  exact Spellings.append_empty _

section

variable {s : List Char} {ls before rest : List BraceLexeme} {alts : List (List BraceLexeme)}

/-- Writing out a group leaves out some of the lexemes. -/
theorem BraceState.IsFirstGroup.sublist (h : IsFirstGroup ls before alts rest)
    {a : List BraceLexeme} (ha : a ∈ alts) : (before ++ (a ++ rest)).Sublist ls := by
  rw [h.eq]
  refine (List.Sublist.refl before).append ((List.Sublist.append ?_ ?_).cons _)
  · exact (isInfix_joinPieces ha).sublist
  · exact List.sublist_cons_self .close rest

/-- The lexemes that are left are read as such again. -/
theorem BraceState.IsFirstGroup.spellings_eq (h : IsFirstGroup (braceLexemes s) before alts rest) :
    spellings s = (parts before alts rest).flatMap spellings := by
  have hpart (a : List BraceLexeme) (ha : a ∈ alts) : spellingsOf (before ++ (a ++ rest)) =
      spellings ((before ++ (a ++ rest)).flatMap BraceLexeme.chars) := by
    show _ = spellingsOf (braceLexemes _)
    rw [braceLexemes_flatMap_chars (h.sublist ha)]
  show spellingsOf (braceLexemes s) = _
  rw [h.spellingsOf_eq, parts, List.flatMap_map, List.flatMap_def,
    List.map_congr_left hpart, ← List.flatMap_def]

/-- Writing out a group makes a text shorter. -/
theorem BraceState.IsFirstGroup.length_lt (h : IsFirstGroup (braceLexemes s) before alts rest)
    {t : List Char} (ht : t ∈ parts before alts rest) : t.length < s.length := by
  obtain ⟨a, ha, rfl⟩ := List.mem_map.1 ht
  have hs :
      s =
        (before ++ .open :: (joinPieces .comma alts ++ .close :: rest)).flatMap
          BraceLexeme.chars := by
    rw [← h.eq, flatMap_chars_braceLexemes]
  have hsub : a.Sublist (joinPieces .comma alts) := (isInfix_joinPieces ha).sublist
  have hle := (hsub.flatMap BraceLexeme.chars).length_le
  rw [hs]
  simp only [List.flatMap_append, List.flatMap_cons, List.length_append,
    BraceLexeme.chars, List.length_cons, List.length_nil] at hle ⊢
  omega

end

/-- Induction along the writing out of groups, the first one first. -/
@[elab_as_elim]
theorem expansion_induction {motive : List Char → Prop} (s : List Char)
    (flat : ∀ s, IsFlat [] (braceLexemes s) → motive s)
    (group : ∀ s before alts rest, IsFirstGroup (braceLexemes s) before alts rest →
      (∀ t ∈ parts before alts rest, motive t) → motive s) : motive s := by
  induction hn : s.length using Nat.strongRecOn generalizing s with
  | ind n ih =>
    rcases flat_or_firstGroup (braceLexemes s) with hflat | ⟨before, alts, rest, h⟩
    · exact flat s hflat
    · exact group s before alts rest h fun t ht => ih t.length (hn ▸ h.length_lt ht) t rfl

/-- There is a spelling. -/
theorem spellings_ne_nil (s : List Char) : spellings s ≠ [] := by
  induction s using expansion_induction with
  | flat s h => simp [spellings_of_isFlat h]
  | group s before alts rest h ih =>
    obtain ⟨a, ha⟩ := List.exists_mem_of_ne_nil alts h.alternatives_ne_nil
    have hmem : (before ++ (a ++ rest)).flatMap BraceLexeme.chars ∈ parts before alts rest :=
      List.mem_map_of_mem ha
    rw [h.spellings_eq]
    exact fun hnil => ih _ hmem (List.flatMap_eq_nil_iff.1 hnil _ hmem)

/-- **A spelling has nothing to write out.** -/
theorem isFlat_of_mem_spellings {s x : List Char} (hx : x ∈ spellings s) :
    IsFlat [] (braceLexemes x) := by
  induction s using expansion_induction with
  | flat s h =>
    rw [spellings_of_isFlat h, List.mem_singleton] at hx
    rwa [hx]
  | group s before alts rest h ih =>
    rw [h.spellings_eq] at hx
    obtain ⟨t, ht, hx⟩ := List.mem_flatMap.1 hx
    exact ih t ht hx

end ImportLint.Glob

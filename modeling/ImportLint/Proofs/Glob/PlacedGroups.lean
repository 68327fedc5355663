import ImportLint.Proofs.Glob.Expansion
import ImportLint.Proofs.Glob.PlacedText

/-!
# Groups of a text by their places

In a text the places of a group are those of its lexemes: each of these takes as many bytes as the
text it stands for. So the alternatives are cut out between the braces and commas of the group, and
writing out groups by their places ends with the spellings of the text.
-/

namespace ImportLint.Glob

open Utf8 BraceState

/-! ## The places of a group -/

/-- The places of the commas and of the end of a group, from within it and some groups in it. -/
def groupPlaces : Nat → Nat → List Nat → List BraceLexeme → Option (List Nat × Nat)
  | _, _, _, [] => none
  | i, depth, commas, .text t :: ls => groupPlaces (i + size t) depth commas ls
  | i, depth, commas, .open :: ls => groupPlaces (i + 1) (depth + 1) commas ls
  | i, depth, commas, .comma :: ls =>
    groupPlaces (i + 1) depth (if depth = 0 then commas ++ [i] else commas) ls
  | i, 0, commas, .close :: _ => some (commas, i)
  | i, depth + 1, commas, .close :: ls => groupPlaces (i + 1) depth commas ls

/-- The end of a group is found at its place. -/
theorem search_visitGroup (u s : List Char) (depth : Nat) (commas : List Nat) :
    search visitGroup (encode (u ++ s)) (depth + 1, commas) (size u) =
      .ok (groupPlaces (size u) depth commas (braceLexemes s)) := by
  induction s using lexing_induction generalizing u depth commas with
  | nil =>
    rw [List.append_nil, search_end, braceLexemes_nil, groupPlaces]
  | cons c r hc ih =>
    have hrest (depth : Nat) (commas : List Nat) := ih (u ++ [c]) depth commas
    simp only [List.append_assoc, List.singleton_append] at hrest
    -- A mark takes one byte.
    have hmark (hascii : c.toNat ≤ 127) (depth : Nat) (commas : List Nat) :
        search visitGroup (encode (u ++ c :: r)) (depth + 1, commas) (size u + 1) =
          .ok (groupPlaces (size u + 1) depth commas (braceLexemes r)) := by
      rw [← size_concat_ascii hascii, hrest]
    by_cases hopen : c = '\x7b'
    · subst hopen
      rw [search_ascii _ u r (by decide) hc, visitGroup_open, braceLexemes_open, groupPlaces]
      exact hmark (by decide) (depth + 1) commas
    by_cases hclose : c = '\x7d'
    · subst hclose
      rw [search_ascii _ u r (by decide) hc, braceLexemes_close]
      obtain _ | depth := depth
      · rw [visitGroup_close_one, groupPlaces]
      · rw [visitGroup_close_add_two, groupPlaces]
        exact hmark (by decide) depth commas
    by_cases hcomma : c = ','
    · subst hcomma
      rw [search_ascii _ u r (by decide) hc, visitGroup_comma, braceLexemes_comma, groupPlaces]
      exact hmark (by decide) depth _
    · rw [search_char _ stopsOnlyAt_visitGroup (by simp) u r hc (by simp [hopen, hclose, hcomma]),
        hrest, braceLexemes_cons hc, BraceLexeme.ofChar, if_neg hopen, if_neg hclose, if_neg hcomma,
        groupPlaces, size_append]
  | bracket r b rest h ih =>
    have hrest := ih (u ++ b.text) depth commas
    rw [List.append_assoc, Bracket.text_append_of_split h] at hrest
    rw [search_class _ u h, hrest, braceLexemes_bracket h, groupPlaces, size_append]
  | openBracket r h ih =>
    have hrest := ih (u ++ ['[']) depth commas
    rw [List.append_assoc, List.singleton_append] at hrest
    rw [search_openBracket _ u h, hrest, braceLexemes_openBracket h, groupPlaces, size_append]

/-- The places of a group in bytes are those of its lexemes. -/
theorem group?_encode (u r : List Char) :
    group? (encode (u ++ '\x7b' :: r)) (size u) =
      .ok (groupPlaces (size u + 1) 0 [] (braceLexemes r)) := by
  have hgroup := search_visitGroup (u ++ ['\x7b']) r 0 []
  rw [List.append_assoc, List.singleton_append, size_concat_ascii (by decide)] at hgroup
  rw [group?, search_ascii _ u r (by decide) (by decide), visitGroup_open]
  exact hgroup

/-- The places of the first group with commas of its own. -/
def firstPlaces : Nat → List BraceLexeme → Option PlacedGroup
  | _, [] => none
  | i, .open :: ls =>
    match groupPlaces (i + 1) 0 [] ls with
    | some (comma :: commas, j) => some ⟨i, comma :: commas, j⟩
    | _ => firstPlaces (i + 1) ls
  | i, l :: ls => firstPlaces (i + size l.chars) ls

/-- The first group is looked for behind a lexeme that opens none. -/
theorem firstPlaces_cons_of_ne {l : BraceLexeme} (h : l ≠ .open) (i : Nat) (ls : List BraceLexeme) :
    firstPlaces i (l :: ls) = firstPlaces (i + size l.chars) ls := by
  cases l with
  | «open» => exact absurd rfl h
  | _ => rfl

/-- The search for the first group in bytes is the one among lexemes. -/
theorem search_visitBrace (u s : List Char) :
    search (visitBrace (encode (u ++ s))) (encode (u ++ s)) () (size u) =
      .ok (firstPlaces (size u) (braceLexemes s)) := by
  -- By induction along the lexemes. The search has gone past the bytes of what comes before.
  induction s using lexing_induction generalizing u with
  | nil =>
    rw [List.append_nil, search_end, braceLexemes_nil, firstPlaces]
  | cons c r hc ih =>
    have hrest := ih (u ++ [c])
    rw [List.append_assoc, List.singleton_append] at hrest
    by_cases hopen : c = '\x7b'
    · subst hopen
      rw [size_concat_ascii (by decide)] at hrest
      rw [search_ascii _ u r (by decide) hc, visitBrace, if_pos rfl, group?_encode,
        braceLexemes_open, firstPlaces]
      rcases groupPlaces (size u + 1) 0 [] (braceLexemes r) with _ | ⟨_ | ⟨comma, commas⟩, j⟩
      · exact hrest
      · exact hrest
      · rfl
    · have hne : BraceLexeme.ofChar c ≠ .open := by
        unfold BraceLexeme.ofChar
        split_ifs <;> simp
      rw [search_char _ (stopsOnlyAt_visitBrace _) (by simp) u r hc (by simpa using hopen), hrest,
        braceLexemes_cons hc, firstPlaces_cons_of_ne hne, BraceLexeme.chars_ofChar, size_append]
  | bracket r b rest h ih =>
    have hrest := ih (u ++ b.text)
    rw [List.append_assoc, Bracket.text_append_of_split h] at hrest
    rw [search_class _ u h, hrest, braceLexemes_bracket h,
      firstPlaces_cons_of_ne (by simp), size_append, BraceLexeme.chars]
  | openBracket r h ih =>
    have hrest := ih (u ++ ['['])
    rw [List.append_assoc, List.singleton_append] at hrest
    rw [search_openBracket _ u h, hrest, braceLexemes_openBracket h,
      firstPlaces_cons_of_ne (by simp), size_append, BraceLexeme.chars]

/-! ## The first group -/

/-- How many bytes lexemes stand for. -/
def width (ls : List BraceLexeme) : Nat := size (ls.flatMap BraceLexeme.chars)

/-- Lexemes take the bytes of the first and those of the others. -/
@[simp] theorem width_cons (l : BraceLexeme) (ls : List BraceLexeme) :
    width (l :: ls) = size l.chars + width ls := by
  rw [width, List.flatMap_cons, size_append]
  rfl

/-- Lexemes take the bytes of each part. -/
@[simp] theorem width_append (ls ms : List BraceLexeme) :
    width (ls ++ ms) = width ls + width ms := by
  rw [width, List.flatMap_append, size_append]
  rfl

/-- Alternatives take the bytes of the first, of the others and of the comma between them. -/
theorem width_joinPieces_cons {alts : List (List BraceLexeme)} (h : alts ≠ [])
    (a : List BraceLexeme) :
    width (joinPieces .comma (a :: alts)) = width a + 1 + width (joinPieces .comma alts) := by
  rw [joinPieces_cons h, width_append, width_cons, ← Nat.add_assoc]
  rfl

section

variable {a ls before rest : List BraceLexeme} {alts : List (List BraceLexeme)} {depth : Nat}

/-- A group has a place for each comma of its own. -/
theorem length_groupPlaces (i depth : Nat) (commas : List Nat) (ls : List BraceLexeme) :
    (groupPlaces i depth commas ls).map (·.1.length) =
      (ownCommas? depth ls).map (commas.length + ·) := by
  induction ls generalizing i depth commas with
  | nil => cases depth <;> rfl
  | cons l ls ih =>
    cases l <;> cases depth <;>
      simp [groupPlaces, ownCommas?, ih, Function.comp_def, Nat.add_assoc, Nat.add_comm 1]

/-- An alternative has no places of the group around it. -/
theorem groupPlaces_append (h : isAlternative depth a = true) (i : Nat) (commas : List Nat)
    (rest : List BraceLexeme) :
    groupPlaces i depth commas (a ++ rest) = groupPlaces (i + width a) 0 commas rest := by
  induction a generalizing i depth with
  | nil =>
    obtain rfl : depth = 0 := by simpa [isAlternative] using h
    rfl
  | cons l a ih =>
    rw [List.cons_append, width_cons, ← Nat.add_assoc]
    -- Commas and closing braces of an alternative belong to groups inside it.
    cases l with
    | text s => exact ih h (i + size s)
    | «open» => exact ih h (i + 1)
    | comma =>
      obtain _ | depth := depth
      · cases h
      · exact ih (by simpa [isAlternative] using h) (i + 1)
    | close =>
      obtain _ | depth := depth
      · cases h
      · exact ih (by simpa [isAlternative] using h) (i + 1)

/-- The places of the commas between alternatives. -/
def commaPlaces : Nat → List (List BraceLexeme) → List Nat
  | _, [] => []
  | _, [_] => []
  | i, a :: b :: alts => (i + width a) :: commaPlaces (i + width a + 1) (b :: alts)

/-- The places in a group are those of the commas between its alternatives and of the brace behind
them. -/
theorem groupPlaces_alternatives (hne : alts ≠ [])
    (halt : ∀ a ∈ alts, isAlternative 0 a = true) (i : Nat) (commas : List Nat)
    (rest : List BraceLexeme) :
    groupPlaces i 0 commas (joinPieces .comma alts ++ .close :: rest) =
      some (commas ++ commaPlaces i alts, i + width (joinPieces .comma alts)) := by
  fun_induction commaPlaces i alts generalizing commas with
  | case1 => exact absurd rfl hne
  | case2 i a =>
    rw [joinPieces_singleton, groupPlaces_append (halt a List.mem_cons_self),
      groupPlaces, List.append_nil]
  | case3 i a b alts ih =>
    have hrest :=
      ih (by simp) (fun x hx => halt x (List.mem_cons_of_mem a hx)) (commas ++ [i + width a])
    rw [width_joinPieces_cons (by simp), joinPieces_cons (by simp), List.append_assoc,
      groupPlaces_append (halt a List.mem_cons_self), List.cons_append,
      groupPlaces, if_pos rfl, hrest, List.append_assoc, List.singleton_append,
      ← Nat.add_assoc, ← Nat.add_assoc]

/-- There is no group to write out in the flat lexemes before the first one. -/
theorem firstPlaces_of_isFlat (h : IsFlat ls before) (i : Nat) :
    firstPlaces i (before ++ ls) = firstPlaces (i + width before) ls := by
  induction h generalizing i with
  | nil => rfl
  | @cons l before hl _ ih =>
    rw [List.cons_append, width_cons, ← Nat.add_assoc, ← ih]
    by_cases hopen : l = .open
    · subst hopen
      have hlength := length_groupPlaces (i + 1) 0 [] (before ++ ls)
      have hno : opensGroup (before ++ ls) = false := hl rfl
      rw [firstPlaces]
      split
      · next comma commas j hgroup =>
        -- A group with a place for a comma would have the comma.
        rw [hgroup] at hlength
        obtain ⟨n, hn, hcommas⟩ := Option.map_eq_some_iff.1 hlength.symm
        rw [opensGroup, hn, Option.any_some, decide_eq_false_iff_not] at hno
        simp at hcommas
        omega
      · rfl
    · exact firstPlaces_cons_of_ne hopen i _

/-- The places of the first group. -/
theorem BraceState.IsFirstGroup.firstPlaces_eq (h : IsFirstGroup ls before alts rest) (i : Nat) :
    firstPlaces i ls = some ⟨i + width before, commaPlaces (i + width before + 1) alts,
      i + width before + 1 + width (joinPieces .comma alts)⟩ := by
  rw [h.eq, firstPlaces_of_isFlat h.flat, firstPlaces,
    groupPlaces_alternatives h.alternatives_ne_nil h.alternatives, List.nil_append]
  match alts, h.two with
  | a :: b :: alts, _ => rfl

end

/-! ## Writing out -/

/-- The alternatives are cut out between the places of a group. -/
theorem slices_encode {alts : List (List BraceLexeme)} (hne : alts ≠ [])
    (u w : List Char) {start : Nat} (hstart : start + 1 = size u) :
    slices (encode (u ++ ((joinPieces .comma alts).flatMap BraceLexeme.chars ++ w)))
        (size u + width (joinPieces .comma alts)) (start :: commaPlaces (size u) alts) =
      .ok (alts.map fun a => encode (a.flatMap BraceLexeme.chars)) := by
  -- Each alternative is cut out up to the comma behind it, the last one up to the brace.
  induction alts generalizing u start with
  | nil => exact absurd rfl hne
  | cons a alts ih =>
    match alts with
    | [] =>
      rw [joinPieces_singleton, commaPlaces, slices, hstart, width, slice_encode]
      rfl
    | b :: alts =>
      have hsize : size (u ++ (a.flatMap BraceLexeme.chars ++ [','])) = size u + width a + 1 := by
        rw [size_append, size_append, ← Nat.add_assoc]
        rfl
      have htext : (joinPieces .comma (a :: b :: alts)).flatMap BraceLexeme.chars ++ w =
          a.flatMap BraceLexeme.chars ++ ',' ::
            ((joinPieces .comma (b :: alts)).flatMap BraceLexeme.chars ++ w) := by
        rw [joinPieces_cons (by simp), List.flatMap_append, List.append_assoc]
        rfl
      have hslice := slice_encode u (a.flatMap BraceLexeme.chars)
        (',' :: ((joinPieces .comma (b :: alts)).flatMap BraceLexeme.chars ++ w))
      have hrest := ih (by simp) (u ++ (a.flatMap BraceLexeme.chars ++ [','])) hsize.symm
      rw [hsize, List.append_assoc, List.append_assoc, List.singleton_append] at hrest
      rw [width_joinPieces_cons (by simp), htext, commaPlaces, slices, hstart, width, hslice,
        ← width, ← Nat.add_assoc, ← Nat.add_assoc, hrest]
      rfl

/-- The first group in bytes is the one among lexemes. -/
theorem firstGroup?_encode (s : List Char) :
    firstGroup? (encode s) = .ok (firstPlaces 0 (braceLexemes s)) :=
  search_visitBrace [] s

/-- A flat text has no group to write out. -/
theorem writeOut_encode_of_isFlat {s : List Char} (h : IsFlat [] (braceLexemes s)) :
    writeOut (encode s) = .ok none := by
  have hnone := firstPlaces_of_isFlat h 0
  rw [List.append_nil] at hnone
  rw [writeOut, firstGroup?_encode, hnone]
  rfl

/-- Writing out the first group of a text by its places gives the texts with one alternative
each. -/
theorem BraceState.IsFirstGroup.writeOut_encode {s : List Char} {before rest : List BraceLexeme}
    {alts : List (List BraceLexeme)} (h : IsFirstGroup (braceLexemes s) before alts rest) :
    writeOut (encode s) = .ok (some ((parts before alts rest).map encode)) := by
  have hs : before.flatMap BraceLexeme.chars ++ '\x7b' ::
      ((joinPieces .comma alts).flatMap BraceLexeme.chars ++
      '\x7d' :: rest.flatMap BraceLexeme.chars) = s := by
    rw [← flatMap_chars_braceLexemes s, h.eq]
    simp [BraceLexeme.chars]
  -- The three parts around the braces, each after the text in front of it.
  have hopening :=
    size_concat_ascii (show '\x7b'.toNat ≤ 127 by decide) (before.flatMap BraceLexeme.chars)
  have hclosing := size_concat_ascii (show '\x7d'.toNat ≤ 127 by decide)
    (before.flatMap BraceLexeme.chars ++ ['\x7b'] ++
      (joinPieces .comma alts).flatMap BraceLexeme.chars)
  have hbefore := slice_encode [] (before.flatMap BraceLexeme.chars) ('\x7b' ::
    ((joinPieces .comma alts).flatMap BraceLexeme.chars ++ '\x7d' ::
      rest.flatMap BraceLexeme.chars))
  have halts := slices_encode h.alternatives_ne_nil (before.flatMap BraceLexeme.chars ++ ['\x7b'])
    ('\x7d' :: rest.flatMap BraceLexeme.chars) hopening.symm
  have hafter := slice_encode (before.flatMap BraceLexeme.chars ++ ['\x7b'] ++
    (joinPieces .comma alts).flatMap BraceLexeme.chars ++
      ['\x7d']) (rest.flatMap BraceLexeme.chars) []
  rw [← size_append, hclosing, size_append, hopening] at hafter
  rw [hopening] at halts
  simp only [List.append_assoc, List.cons_append, List.nil_append, List.append_nil, hs]
    at hbefore halts hafter
  rw [size_nil, Nat.zero_add] at hbefore
  rw [← length_encode s] at hafter
  have hfirst := firstGroup?_encode s
  rw [h.firstPlaces_eq, Nat.zero_add] at hfirst
  rw [writeOut_of_firstGroup? hfirst hbefore hafter halts]
  simp [parts, encode_append, Function.comp_def]

/-- **Groups are written out by their places** without a fault, and what comes of it are the
spellings. -/
theorem expand_encode (s : List Char) : expand (encode s) = .ok ((spellings s).map encode) := by
  induction s using expansion_induction with
  | flat s h =>
    rw [expand_of_writeOut (writeOut_encode_of_isFlat h), spellings_of_isFlat h, List.map_singleton]
  | group s before alts rest h ih =>
    have hmap : ((parts before alts rest).map encode).mapM expand =
        .ok ((parts before alts rest).map fun t => (spellings t).map encode) := by
      rw [mapM_eq_ok_iff, List.forall₂_map_left_iff, List.forall₂_map_right_iff, List.forall₂_same]
      exact ih
    rw [expand_of_writeOut_some h.writeOut_encode, hmap, h.spellings_eq,
      List.map_flatMap, List.flatMap_def]
    rfl

/-- **Safety of writing out groups by their places.** On any text, looking for a place goes forward
and writing out a group makes the text shorter, so there is an end; nothing goes wrong on the way;
and what comes of it are the spellings of the text, of which there are some, and none of which has a
group left to write out. -/
theorem expand_safety (s : List Char) :
    (∀ i j, skipClass (encode s) i = .ok j → i < j) ∧
      (∀ ts, writeOut (encode s) = .ok (some ts) → ∀ t ∈ ts, t.length < (encode s).length) ∧
      expand (encode s) = .ok ((spellings s).map encode) ∧ spellings s ≠ [] ∧
      ∀ x ∈ spellings s, writeOut (encode x) = .ok none ∧ expand (encode x) = .ok [encode x] := by
  refine ⟨fun _ _ => lt_of_skipClass, fun _ h _ => length_lt_of_writeOut h,
    expand_encode s, spellings_ne_nil s, fun x hx => ?_⟩
  have hnone := writeOut_encode_of_isFlat (isFlat_of_mem_spellings hx)
  exact ⟨hnone, expand_of_writeOut hnone⟩

end ImportLint.Glob

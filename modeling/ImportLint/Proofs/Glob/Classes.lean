import ImportLint.Proofs.Glob.Faults
import ImportLint.Proofs.Glob.Meaning

/-!
# What a bracket class stands for

Stars are collapsed in a class as they are anywhere else, before its ranges are read. So a pattern
that is one class stands for the characters of the class that is left. These are those of the class
as written unless a run of stars is one end of a range: the ranges after it are then read from
another place.
-/

namespace ImportLint.Glob

/-! ## Members -/

/-- Collapsing the stars of a class thins its members. -/
theorem Bracket.thins_collapse (b : Bracket) : Thins b.members b.collapse.members := by
  obtain ⟨members, hmembers, hthins⟩ :=
    (thins_collapseRest (b.members ++ [']'])).exists_concat (by decide)
  rw [collapse, hmembers, List.dropLast_concat]
  exact hthins

/-! ## Ranges beside runs of stars -/

namespace Bracket

/-- Whether some members denote a character. -/
def denotes (members : List Char) (c : Char) : Bool :=
  (ranges members).any fun p => p.1 ≤ c && c ≤ p.2

/-- A class admits what its members denote, or what they do not if it is negated. -/
theorem admits_eq (b : Bracket) (c : Char) : b.admits c = (denotes b.members c != b.negated) := rfl

/-- Where the range ends that starts with the first of some members. -/
def rangeEnd? : List Char → Option Char
  | _ :: '-' :: y :: _ => some y
  | _ => none

/-- Whether the ranges of some members **keep clear** of runs of stars: none ends in a star with
another one after it, and none that starts with a star after another one is empty. -/
def keepsClear : List Char → Bool
  | _ :: '-' :: y :: r => (y != '*' || r.head? != some '*') && keepsClear r
  | x :: r => (x != '*' || r.head? != some '*' || (rangeEnd? r).all ('*' ≤ ·)) && keepsClear r
  | [] => true

variable {x y c : Char} {m r t : List Char}

/-- A range denotes the characters from its first to its last. -/
theorem denotes_range : denotes (x :: '-' :: y :: r) c = (x ≤ c && c ≤ y || denotes r c) := rfl

/-- A member that starts no range denotes itself. -/
theorem denotes_single (h : ∀ y r', r = '-' :: y :: r' → False) :
    denotes (x :: r) c = (x ≤ c && c ≤ x || denotes r c) := by
  rw [denotes, ranges, List.any_cons]
  · rfl
  · exact h

/-- A star that another follows is one of the members that are left. -/
theorem denotes_star (h : (rangeEnd? ('*' :: r)).all ('*' ≤ ·) = true) :
    denotes ('*' :: r) '*' = true := by
  by_cases hrange : ∃ y r', r = '-' :: y :: r'
  · obtain ⟨y, r', rfl⟩ := hrange
    have hy : '*' ≤ y := by simpa [rangeEnd?] using h
    rw [denotes_range, decide_eq_true hy]
    rfl
  · rw [denotes_single fun y r' hr => hrange ⟨y, r', hr⟩]
    rfl

/-- **Thinned members denote the same** if the ranges keep clear of runs of stars. -/
theorem denotes_eq_of_thins (hclear : keepsClear m = true) (h : Thins m t) (c : Char) :
    denotes t c = denotes m c := by
  fun_induction keepsClear m generalizing t with
  | case1 x y r ih =>
    rw [Bool.and_eq_true] at hclear
    -- The range is kept, since the star that it may end in is not before another one.
    cases h with
    | cons _ h =>
      cases h with
      | cons _ h =>
        cases h with
        | cons _ h => rw [denotes_range, denotes_range, ih hclear.2 h]
        | drop h => cases hclear.1
  | case2 x r hr ih =>
    rw [Bool.and_eq_true] at hclear
    cases h with
    | cons _ h => rw [denotes_single hr, denotes_single (h.not_hyphen hr), ih hclear.2 h]
    | @drop r _ h =>
      have hstar := denotes_star (by simpa using hclear.1)
      rw [ih hclear.2 h, denotes_single hr]
      by_cases hc : c = '*'
      · rw [hc, hstar, Bool.or_true]
      · have hother : ('*' ≤ c && c ≤ '*') = false := by
          rw [Bool.and_eq_false_imp]
          intro hle
          exact decide_eq_false fun hge => hc (Char.le_antisymm hge (of_decide_eq_true hle))
        rw [hother, Bool.false_or]
  | case3 =>
    cases h
    rfl

/-- A class the ranges of which keep clear of runs of stars stands for the same characters when
these are collapsed. -/
theorem admits_collapse (b : Bracket) (h : keepsClear b.members = true) (c : Char) :
    b.collapse.admits c = b.admits c := by
  rw [admits_eq, admits_eq, denotes_eq_of_thins h b.thins_collapse]
  rfl

end Bracket

/-! ## Patterns that are one class -/

section

variable {body : List Char} {b : Bracket}

/-- A class that is closed is one lexeme. -/
theorem braceLexemes_class (h : Bracket.split (body ++ [']']) = some (b, [])) :
    braceLexemes ('[' :: (body ++ [']'])) = [.text b.text] := by
  rw [braceLexemes_bracket h, braceLexemes_nil]

/-- A class is the only unit of the only segment. -/
theorem segments_class (h : Bracket.split (body ++ [']']) = some (b, [])) :
    segments ('[' :: (body ++ [']'])) = [[.bracket b]] := by
  rw [segments, units_bracket h, units_nil]
  rfl

/-- What is left of a class when its stars are collapsed is a class. -/
theorem collapseStars_class (h : Bracket.split (body ++ [']']) = some (b, [])) :
    collapseStars ('[' :: (body ++ [']'])) = b.collapse.text := by
  have hany : isAnySegments [.bracket b] = false := rfl
  rw [collapseStars_eq_collapseRest (segments_class h) hany,
    collapseRest_cons (by decide) (by simp), ← Bracket.text_append_of_split (split_collapseRest h),
    collapseRest_nil, List.append_nil]

/-- A class as a pattern matches a single character that it admits, other than a dot. -/
theorem segmentsMatch_class_iff {c : Char} :
    SegmentsMatch [[.bracket b]] [[c]] ↔ c ≠ '.' ∧ b.admits c = true := by
  rw [segmentsMatch_one_iff rfl]
  constructor
  · rintro ⟨s, ss, hs, hmatch, -⟩
    obtain ⟨rfl, -⟩ := List.cons.inj hs
    cases hmatch with
    | bracket hdot hadmits => exact ⟨hdot rfl, hadmits⟩
  · rintro ⟨hdot, hadmits⟩
    exact ⟨[c], [], rfl, .bracket (fun _ => hdot) hadmits .nil, .nil⟩

/-- A class is a pattern, and stands for what is left of it when its stars are collapsed. -/
theorem exists_class_accepts (h : Bracket.split (body ++ [']']) = some (b, [])) :
    ∃ p, Pattern.ofString? (.ofList ('[' :: (body ++ [']']))) = .ok p ∧
      ∀ c, c ≠ '/' → c ≠ '.' → (p.accepts (.ofList [c]) = true ↔ b.collapse.admits c = true) := by
  have hspellings : spellings ('[' :: (body ++ [']'])) = ['[' :: (body ++ [']'])] := by
    refine spellings_of_open_notMem ?_
    rw [braceLexemes_class h]
    simp
  have hcloses : ClosesClasses ('[' :: (body ++ [']'])) :=
    closesClasses_bracket h (by simp [ClosesClasses])
  obtain ⟨alt, halt⟩ := Alternative.exists_ofSpelling?_eq_ok_iff.2 hcloses
  have hsegments : segments (collapseStars ('[' :: (body ++ [']']))) = [[.bracket b.collapse]] := by
    rw [segments_collapseStars, segments_class h]
    rfl
  obtain ⟨p, hp⟩ : ∃ p, Pattern.ofString? (.ofList ('[' :: (body ++ [']']))) = .ok p := by
    rw [exists_ofString?_eq_ok_iff, String.toList_ofList, hspellings]
    exact ⟨List.cons_ne_nil _ _, by simpa using ⟨alt, halt⟩⟩
  refine ⟨p, hp, fun c hslash hdot => ?_⟩
  calc p.accepts (.ofList [c]) = true ↔ alt.accepts [c] = true := by
        rw [accepts_iff_exists_spelling hp, String.toList_ofList, hspellings, String.toList_ofList]
        simp [halt]
    _ ↔ SegmentsMatch [[.bracket b.collapse]] (pieces '/' [c]) := by
        rw [Alternative.accepts_iff_of_nonempty halt (by simp [hsegments]), hsegments]
    _ ↔ b.collapse.admits c = true := by
        rw [pieces_of_notMem (by simpa using Ne.symm hslash),
          segmentsMatch_class_iff, and_iff_right hdot]

/-- **What a pattern stands for that is one class.** It is a pattern, and of the texts of one
character other than a slash and a dot it accepts those in the class that is left when the stars are
collapsed. These are the characters of the class as written if its ranges keep clear of runs of
stars. -/
theorem class_accepts_iff (h : Bracket.split (body ++ [']']) = some (b, [])) :
    ∃ p, Pattern.ofString? (.ofList ('[' :: (body ++ [']']))) = .ok p ∧
      collapseStars ('[' :: (body ++ [']'])) = b.collapse.text ∧
      ∀ c, c ≠ '/' → c ≠ '.' →
        (p.accepts (.ofList [c]) = true ↔ b.collapse.admits c = true) ∧
        (Bracket.keepsClear b.members = true →
          (p.accepts (.ofList [c]) = true ↔ b.admits c = true)) := by
  obtain ⟨p, hp, haccepts⟩ := exists_class_accepts h
  refine ⟨p, hp, collapseStars_class h,
    fun c hslash hdot => ⟨haccepts c hslash hdot, fun hclear => ?_⟩⟩
  rw [haccepts c hslash hdot, b.admits_collapse hclear]

end

/-- A negated class with a brace, a slash and a range from the last of several stars. -/
theorem class_accepts_iff_negated : ∃ p, Pattern.ofString? "[!\x7b/,***-9]" = .ok p ∧
    p.accepts "a" = true ∧ p.accepts "5" = false := by
  have hsplit : Bracket.split ("!\x7b/,***-9".toList ++ [']']) =
      some (⟨true, "\x7b/,***-9".toList⟩, []) := by
    decide
  obtain ⟨p, hp, -, haccepts⟩ := class_accepts_iff hsplit
  have hclear : Bracket.keepsClear "\x7b/,***-9".toList = true := by decide
  refine ⟨p, hp, ?_, ?_⟩
  · exact ((haccepts 'a' (by decide) (by decide)).2 hclear).2 (by decide)
  · rw [← Bool.not_eq_true]
    exact mt ((haccepts '5' (by decide) (by decide)).2 hclear).1 (by decide)

/-- Where a run of stars ends one range and starts the next, the second is lost: only one star is
left for both. -/
theorem class_loses_characters :
    Bracket.split ("#-**-9".toList ++ [']']) = some (⟨false, "#-**-9".toList⟩, []) ∧
      (⟨false, "#-**-9".toList⟩ : Bracket).admits '5' = true ∧
      ∃ p, Pattern.ofString? "[#-**-9]" = .ok p ∧ p.accepts "5" = false := by
  have hsplit : Bracket.split ("#-**-9".toList ++ [']']) = some (⟨false, "#-**-9".toList⟩, []) := by
    decide
  obtain ⟨p, hp, haccepts⟩ := exists_class_accepts hsplit
  refine ⟨hsplit, by decide, p, hp, ?_⟩
  rw [← Bool.not_eq_true]
  exact mt (haccepts '5' (by decide) (by decide)).1 (by decide +kernel)

end ImportLint.Glob

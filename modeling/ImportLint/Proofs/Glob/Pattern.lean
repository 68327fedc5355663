import ImportLint.Glob.Pattern
import ImportLint.Proofs.Glob.Alternation
import ImportLint.Proofs.Traverse

/-!
# Patterns and their spellings

A text is a pattern if each of its spellings can be checked, and a pattern accepts what one of them
accepts. So what is true of spellings is true of patterns: a pattern with a brace group is the
choice among the patterns in which one alternative stands in the place of the group.
-/

namespace ImportLint.Glob

/-- A text is a pattern if it is not empty and its spellings are globs. -/
theorem exists_ofString?_eq_ok_iff {text : String} : (∃ p, Pattern.ofString? text = .ok p) ↔
    text.toList ≠ [] ∧ ∀ w ∈ spellings text.toList, ∃ alt, Alternative.ofSpelling? w = .ok alt := by
  rw [← exists_mapM_eq_ok_iff, Pattern.ofString?]
  by_cases hempty : text.isEmpty = true
  · have hnil : text.toList = [] := by simpa using hempty
    simp [hempty, hnil]
  · have hnil : text.toList ≠ [] := by simpa using hempty
    rw [if_neg hempty]
    cases (spellings text.toList).mapM Alternative.ofSpelling? with
    | error fault => simp
    | ok alternatives => simp [hnil]

/-- A pattern is shown as it is written. -/
theorem text_of_ofString? {text : String} {p : Pattern} (h : Pattern.ofString? text = .ok p) :
    p.text = text := by
  unfold Pattern.ofString? at h
  split at h
  · cases h
  · split at h
    · cases h
      rfl
    · cases h

/-- A pattern stands for its spellings. -/
theorem alternatives_of_ofString? {text : String} {p : Pattern}
    (h : Pattern.ofString? text = .ok p) :
    (spellings text.toList).mapM Alternative.ofSpelling? = .ok p.alternatives := by
  unfold Pattern.ofString? at h
  split at h
  · cases h
  · split at h
    · next alternatives hs =>
      cases h
      exact hs
    · cases h

/-- A pattern accepts what one of its spellings accepts. -/
theorem accepts_iff_exists_spelling {text : String} {p : Pattern}
    (h : Pattern.ofString? text = .ok p) (s : String) : p.accepts s = true ↔
      ∃ w ∈ spellings text.toList, ∃ alt, Alternative.ofSpelling? w = .ok alt ∧
        alt.accepts s.toList = true := by
  have hmem := mem_iff_of_mapM_eq_ok (alternatives_of_ofString? h)
  rw [Pattern.accepts, List.any_eq_true]
  simp only [hmem]
  constructor
  · rintro ⟨alt, ⟨w, hw, halt⟩, ha⟩
    exact ⟨w, hw, alt, halt, ha⟩
  · rintro ⟨w, hw, alt, halt, ha⟩
    exact ⟨alt, ⟨w, hw, halt⟩, ha⟩

/-! ## Brace groups -/

section Group

variable {a b : List Char} {xs : List (List Char)}

/-- **The law of brace alternation.** A group within a pattern may be written out, wherever it
stands: the whole is a pattern if it is one with each alternative in the place of the group, and
then it accepts what one of these accepts. -/
theorem brace_alternation (hlen : 2 ≤ xs.length) (halt : ∀ x ∈ xs, IsAlternative x)
    (hout : isOutside a.length (a ++ group xs ++ b) = true) (hne : ∀ x ∈ xs, a ++ x ++ b ≠ []) :
    ((∃ p, Pattern.ofString? (.ofList (a ++ group xs ++ b)) = .ok p) ↔
      ∀ x ∈ xs, ∃ q, Pattern.ofString? (.ofList (a ++ x ++ b)) = .ok q) ∧
    ∀ p, Pattern.ofString? (.ofList (a ++ group xs ++ b)) = .ok p → ∀ s : String,
      (p.accepts s = true ↔
        ∃ x ∈ xs, ∃ q, Pattern.ofString? (.ofList (a ++ x ++ b)) = .ok q ∧ q.accepts s = true) := by
  have hmem := mem_spellings_group hlen halt hout
  have hwhole : a ++ group xs ++ b ≠ [] := by simp [group]
  -- Both sides speak of the same spellings.
  have hok : (∃ p, Pattern.ofString? (.ofList (a ++ group xs ++ b)) = .ok p) ↔
      ∀ x ∈ xs, ∃ q, Pattern.ofString? (.ofList (a ++ x ++ b)) = .ok q := by
    simp only [exists_ofString?_eq_ok_iff, String.toList_ofList, hmem]
    constructor
    · rintro ⟨-, h⟩ x hx
      exact ⟨hne x hx, fun w hw => h w ⟨x, hx, hw⟩⟩
    · intro h
      refine ⟨hwhole, ?_⟩
      rintro w ⟨x, hx, hw⟩
      exact (h x hx).2 w hw
  refine ⟨hok, fun p hp s => ?_⟩
  have heach := hok.1 ⟨p, hp⟩
  rw [accepts_iff_exists_spelling hp, String.toList_ofList]
  simp only [hmem]
  constructor
  · rintro ⟨w, ⟨x, hx, hw⟩, hs⟩
    obtain ⟨q, hq⟩ := heach x hx
    refine ⟨x, hx, q, hq, (accepts_iff_exists_spelling hq s).2 ⟨w, ?_, hs⟩⟩
    rwa [String.toList_ofList]
  · rintro ⟨x, hx, q, hq, hs⟩
    obtain ⟨w, hw, hs⟩ := (accepts_iff_exists_spelling hq s).1 hs
    rw [String.toList_ofList] at hw
    exact ⟨w, ⟨x, hx, hw⟩, hs⟩

end Group

/-- The law at a group within a pattern that holds a group itself and a comma in a class. -/
theorem brace_alternation_nested :
    ∃ p, Pattern.ofString? "src/\x7ba[,],b\x7bc,d\x7d\x7d/\x7b*.ts" = .ok p ∧ ∀ s : String,
      (p.accepts s = true ↔ ∃ x ∈ ["a[,]".toList, "b\x7bc,d\x7d".toList], ∃ q,
        Pattern.ofString? (.ofList ("src/".toList ++ x ++ "/\x7b*.ts".toList)) = .ok q ∧
          q.accepts s = true) := by
  obtain ⟨hok, haccepts⟩ := @brace_alternation "src/".toList "/\x7b*.ts".toList
    ["a[,]".toList, "b\x7bc,d\x7d".toList] (by decide) (by decide +kernel)
      (by decide +kernel) (by decide)
  have heach : ∀ x ∈ ["a[,]".toList, "b\x7bc,d\x7d".toList], ∃ q,
      Pattern.ofString? (.ofList ("src/".toList ++ x ++ "/\x7b*.ts".toList)) = .ok q := by
    simp only [exists_eq_ok_iff]
    decide +kernel
  have hwhole : String.ofList ("src/".toList ++ group ["a[,]".toList, "b\x7bc,d\x7d".toList] ++
      "/\x7b*.ts".toList) = "src/\x7ba[,],b\x7bc,d\x7d\x7d/\x7b*.ts" := by decide
  rw [hwhole] at hok haccepts
  obtain ⟨p, hp⟩ := hok.2 heach
  exact ⟨p, hp, haccepts p hp⟩

end ImportLint.Glob

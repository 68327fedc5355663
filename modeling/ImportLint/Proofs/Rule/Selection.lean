import ImportLint.Proofs.Glob.Below
import ImportLint.Proofs.Path.Normalize
import ImportLint.Proofs.Rule.Violations

/-!
# Selection and the text of a path

Selection sees a file only as the text of its path, so files are governed alike by whatever entries
and matcher there are exactly if their paths have the same text. A `./` before a path makes no
difference to the text if it is the only one; a second one stays.
-/

namespace ImportLint

/-- Nothing but the text of a path matters to selection. -/
theorem select_congr {p q : Path} (h : p.normalize = q.normalize) {m : Type → Type}
    [Monad m] (ask : Matcher m) (entries : List Entry) :
      select ask entries p = select ask entries q := by
  rw [select, select, h]

/-- Paths with different texts are told apart by a matcher that accepts one text only. -/
theorem select_eq_iff {p q : Path} :
    (∀ (m : Type → Type) [Monad m] (ask : Matcher m) (entries : List Entry),
      select ask entries p = select ask entries q) ↔ p.normalize = q.normalize := by
  refine ⟨fun h => ?_, fun h m _ ask entries => select_congr h ask entries⟩
  let ask : Matcher Id := fun question => question.text == String.ofList p.normalize
  let e : Entry := ⟨⟨"", []⟩, [], none⟩
  have hp : Id.run (select ask [e] p) = some e := select_eq_some_iff.2 (.head (beq_self_eq_true _))
  rw [h Id ask [e], select_eq_some_iff] at hp
  obtain ⟨before, after, hsplit, -, hselects⟩ := hp
  exact (String.ofList_injective (eq_of_beq hselects)).symm

/-- **A leading `./`.** Whatever the entries and the matcher are, the same entry is selected for a
path with and without `./` before it, exactly if the path does not start with `./` itself,
backslashes and bytes that are no UTF-8 counted in. The text of a path starts with `./`, and changes
when it is normalized again, exactly if the path starts with two. -/
theorem select_inHere (p : Path) :
    ((∀ (m : Type → Type) [Monad m] (ask : Matcher m) (entries : List Entry),
        select ask entries p.inHere = select ask entries p) ↔ ¬ ['.', '/'] <+: p.slashed) ∧
    (['.', '/'] <+: p.normalize ↔ ['.', '/', '.', '/'] <+: p.slashed) ∧
    ((Path.ofString (String.ofList p.normalize)).normalize = p.normalize ↔
      ¬ ['.', '/', '.', '/'] <+: p.slashed) := by
  refine ⟨?_, Path.normalize_startsWith_iff, Path.normalize_normalize_iff⟩
  rw [select_eq_iff, Path.normalize_inHere, eq_comm, Path.normalize_eq_slashed_iff]

/-- An entry for a file that does not govern it when its path is written with `./` twice. -/
theorem select_twice_here : ∃ target, Glob.Pattern.ofString? "a.ts" = .ok target ∧
    (Path.ofString "./a.ts").inHere = Path.ofString "././a.ts" ∧ ∀ restrictions docRef,
      Id.run (select Matcher.glob [⟨target, restrictions, docRef⟩] (Path.ofString "./a.ts")) =
        some ⟨target, restrictions, docRef⟩ ∧
      Id.run (select Matcher.glob [⟨target, restrictions, docRef⟩] (Path.ofString "././a.ts")) =
        none := by
  have hbare : Glob.IsBare "a.ts".toList := by decide +kernel
  obtain ⟨target, htarget, haccepts⟩ := Glob.Pattern.exists_accepts_iff_eq (by decide) hbare
  refine ⟨target, htarget, by decide +kernel, fun restrictions docRef => ⟨?_, ?_⟩⟩
  · have htext : String.ofList (Path.ofString "./a.ts").normalize = "a.ts" := by decide +kernel
    exact select_eq_some_iff.2 (.head ((haccepts _).2 htext))
  · have htext : String.ofList (Path.ofString "././a.ts").normalize ≠ "a.ts" := by decide +kernel
    refine select_eq_none_iff.2 fun e he hselects => htext ((haccepts _).1 ?_)
    obtain rfl := List.mem_singleton.1 he
    exact hselects

end ImportLint

import ImportLint.Proofs.Config.Entries
import ImportLint.Proofs.Glob.Pattern

/-!
# The first fault of a configuration

Written entries are checked one after the other, and so are the restrictions of each. If all are
sound, the checked entries say what the written ones do; otherwise the error is that of the first
faulty entry, and in it that of the first part at fault, whose place it names.
-/

namespace ImportLint

/-! ## The first fault of a list -/

section

variable {α β ε : Type} {check : Nat → α → Except ε β} {P : α → Prop}

/-- A check of a list succeeds if it does at each item, provided that this does not depend on the
index. -/
theorem exists_checkEach_eq_ok_iff (hcheck : ∀ i a, (∃ b, check i a = .ok b) ↔ P a)
    {i : Nat} {as : List α} : (∃ bs, checkEach check i as = .ok bs) ↔ ∀ a ∈ as, P a := by
  rw [checkEach_eq_mapM, exists_mapM_eq_ok_iff]
  simp only [hcheck]
  rw [← List.forall_mem_map (f := Prod.fst), List.zipIdx_map_fst]

/-- A check of a list fails with the error of the first item at fault. -/
theorem checkEach_eq_error_iff (hcheck : ∀ i a, (∃ b, check i a = .ok b) ↔ P a) {i : Nat}
    {as : List α} {err : ε} :
    checkEach check i as = .error err ↔ ∃ before a after, as = before ++ a :: after ∧
      (∀ b ∈ before, P b) ∧
      check (i + before.length) a = .error err := by
  rw [checkEach_eq_mapM, mapM_eq_error_iff]
  simp only [hcheck]
  constructor
  · rintro ⟨before, x, after, hsplit, hbefore, hx⟩
    obtain ⟨before, rest, rfl, rfl, hrest⟩ := List.zipIdx_eq_append_iff.1 hsplit
    obtain ⟨a, after, rfl, rfl, -⟩ := List.zipIdx_eq_cons_iff.1 hrest.symm
    refine ⟨before, a, after, rfl, ?_, hx⟩
    rwa [← List.forall_mem_map (f := Prod.fst), List.zipIdx_map_fst] at hbefore
  · rintro ⟨before, a, after, rfl, hbefore, ha⟩
    refine ⟨before.zipIdx i, (a, i + before.length),
      after.zipIdx (i + before.length + 1), ?_, ?_, ha⟩
    · rw [List.zipIdx_append, List.zipIdx_cons]
    · rwa [← List.forall_mem_map (f := Prod.fst), List.zipIdx_map_fst]

end

/-! ## Sound entries -/

/-- A written entry is **sound** if its target and its restrictions are patterns and it has a
restriction. -/
structure EntryText.IsSound (t : EntryText) : Prop where
  target : ∃ p, Glob.Pattern.ofString? t.target = .ok p
  restrictions : ∀ r ∈ t.restrictions, ∃ p, Glob.Pattern.ofString? r = .ok p
  nonempty : t.restrictions ≠ []

/-- A checked entry **keeps** a written one if it holds the patterns that the texts make, in their
order, with the texts and the reference as they are written, and has a restriction. -/
structure EntryText.IsKeptIn (t : EntryText) (e : Entry) : Prop extends t.Becomes e where
  targetText : e.target.text = t.target
  restrictionTexts : e.restrictions.map (·.text) = t.restrictions

namespace EntryText

variable {t : EntryText} {e : Entry}

/-- What a written entry becomes keeps its texts, as a pattern is shown as it is written. -/
theorem isKeptIn_iff : t.IsKeptIn e ↔ t.Becomes e := by
  refine ⟨fun h => h.toBecomes, fun h => ⟨h, Glob.text_of_ofString? h.target, ?_⟩⟩
  rw [← List.forall₂_eq_eq_eq, List.forall₂_map_left_iff]
  exact h.restrictions.flip.imp fun _ _ hp => Glob.text_of_ofString? hp

/-- The entries that become something are the sound ones. -/
theorem exists_becomes_iff : (∃ e, t.Becomes e) ↔ t.IsSound := by
  constructor
  · rintro ⟨e, htarget, hrestrictions, hnonempty, -⟩
    refine ⟨⟨e.target, htarget⟩,
      exists_mapM_eq_ok_iff.1 ⟨e.restrictions, mapM_eq_ok_iff.2 hrestrictions⟩, ?_⟩
    rintro hempty
    rw [hempty, List.forall₂_nil_left_iff] at hrestrictions
    exact hnonempty hrestrictions
  · rintro ⟨⟨target, htarget⟩, hrestrictions, hnonempty⟩
    obtain ⟨ps, hps⟩ := exists_mapM_eq_ok_iff.2 hrestrictions
    rw [mapM_eq_ok_iff] at hps
    refine ⟨⟨target, ps, t.docRef⟩, htarget, hps, ?_, rfl⟩
    rintro rfl
    exact hnonempty (List.forall₂_nil_right_iff.1 hps)

end EntryText

/-! ## The first fault of an entry -/

/-- The **first fault** of a written entry at an index: that of its target, else that of the first
restriction that is no pattern, else that it has no restriction. -/
inductive EntryText.FirstFault (t : EntryText) (i : Nat) : ConfigError → Prop
  | target {cause : Glob.PatternError} (hfault : Glob.Pattern.ofString? t.target = .error cause) :
    FirstFault t i (.pattern s!"import-patterns[{i}].target" cause)
  | restriction {before after : List String} {r : String} {cause : Glob.PatternError}
      (htarget : ∃ p, Glob.Pattern.ofString? t.target = .ok p)
      (hsplit : t.restrictions = before ++ r :: after)
      (hbefore : ∀ b ∈ before, ∃ p, Glob.Pattern.ofString? b = .ok p)
      (hfault : Glob.Pattern.ofString? r = .error cause) :
    FirstFault t i (.pattern s!"import-patterns[{i}].restrictions[{before.length}]" cause)
  | noRestriction (htarget : ∃ p, Glob.Pattern.ofString? t.target = .ok p)
      (hempty : t.restrictions = []) :
    FirstFault t i (.emptyRestrictions s!"import-patterns[{i}]")

namespace Entry

variable {t : EntryText} {i : Nat} {err : ConfigError}

/-- The places of the parts of an entry, written out. -/
theorem atIndex?_eq (i : Nat) (t : EntryText) : atIndex? i t =
    ofText? (.pattern s!"import-patterns[{i}].target")
      (fun j => .pattern s!"import-patterns[{i}].restrictions[{j}]")
      (.emptyRestrictions s!"import-patterns[{i}]") t := by
  have hjoin (s : String) : "import-patterns[" ++ toString i ++ "]" ++ s =
      "import-patterns[" ++ toString i ++ ("]" ++ s) := String.append_assoc
  show ofText? (.pattern ("import-patterns[" ++ toString i ++ "]" ++ ".target"))
    (fun j =>
      .pattern
        ("import-patterns[" ++ toString i ++ "]" ++ ".restrictions[" ++ toString j ++ "]")) _ t = _
  simp only [hjoin]
  rfl

/-- The check of an entry fails with its first fault. -/
theorem atIndex?_eq_error_iff : atIndex? i t = .error err ↔ t.FirstFault i err := by
  have hpattern (ofFault : Nat → Glob.PatternError → ConfigError) (j : Nat) (r : String) :
      (∃ p, (Glob.Pattern.ofString? r).mapError (ofFault j) = .ok p) ↔
        ∃ p, Glob.Pattern.ofString? r = .ok p := by
    simp only [mapError_eq_ok_iff]
  rw [atIndex?_eq, ofText?]
  simp only [bind_eq_error_iff, mapError_eq_error_iff, mapError_eq_ok_iff,
    checkEach_eq_error_iff (hpattern _), Nat.zero_add]
  -- The target is checked first, then the restrictions in order, and last that there are any.
  constructor
  · rintro (⟨cause, hfault, rfl⟩ | ⟨target, htarget,
      ⟨before, r, after, hsplit, hbefore, cause, hfault, rfl⟩ | ⟨ps, hps, hnone⟩⟩)
    · exact .target hfault
    · exact .restriction ⟨target, htarget⟩ hsplit hbefore hfault
    · rw [checkEach_ofString?_eq_ok_iff] at hps
      cases ps with
      | nil =>
        obtain rfl := Except.error.inj hnone
        exact .noRestriction ⟨target, htarget⟩ (List.forall₂_nil_right_iff.1 hps)
      | cons => cases hnone
  · intro h
    cases h with
    | target hfault => exact .inl ⟨_, hfault, rfl⟩
    | restriction htarget hsplit hbefore hfault =>
      obtain ⟨target, htarget⟩ := htarget
      exact .inr ⟨target, htarget, .inl ⟨_, _, _, hsplit, hbefore, _, hfault, rfl⟩⟩
    | noRestriction htarget hempty =>
      obtain ⟨target, htarget⟩ := htarget
      refine .inr ⟨target, htarget, .inr ⟨[], ?_, rfl⟩⟩
      rw [hempty]
      rfl

/-- **The outcome of a check.** Entries can be checked exactly if all are sound; then the checked
ones keep them, in their order, each with a restriction. Otherwise the error is the first fault of
the first entry that is not sound. -/
theorem ofTexts?_outcome (ts : List EntryText) :
    ((∃ es, ofTexts? ts = .ok es) ↔ ∀ t ∈ ts, t.IsSound) ∧
    (∀ es, ofTexts? ts = .ok es ↔ List.Forall₂ EntryText.IsKeptIn ts es) ∧
    ∀ err, ofTexts? ts = .error err ↔ ∃ before t after, ts = before ++ t :: after ∧
      (∀ b ∈ before, b.IsSound) ∧ t.FirstFault before.length err := by
  have hsound (i : Nat) (t : EntryText) : (∃ e, atIndex? i t = .ok e) ↔ t.IsSound := by
    simp only [atIndex?_eq_ok_iff, EntryText.exists_becomes_iff]
  refine ⟨exists_checkEach_eq_ok_iff hsound, fun es => ?_, fun err => ?_⟩
  · rw [ofTexts?_eq_ok_iff]
    exact ⟨.imp fun _ _ => EntryText.isKeptIn_iff.2, .imp fun _ _ => EntryText.isKeptIn_iff.1⟩
  · simp only [ofTexts?, checkEach_eq_error_iff hsound, Nat.zero_add, atIndex?_eq_error_iff]

/-- Two faults in the second of three entries, and two in the third. -/
example :
    ofTexts? [⟨"a", ["b"], none⟩, ⟨"lib/**", ["ok/**", "bad/[x", "["], none⟩, ⟨"[", [], none⟩] =
      .error (.pattern "import-patterns[1].restrictions[1]"
        (.invalid "bad/[x" ⟨4, .openBracket⟩)) := by
  cbv

end Entry

end ImportLint

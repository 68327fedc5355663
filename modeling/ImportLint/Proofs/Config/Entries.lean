import ImportLint.Config.Reader
import ImportLint.Proofs.Traverse

/-!
# Entries as they are written

What a table says when it is read as an entry, and what a checked entry has in common with the
written one: its patterns are those that the texts make, in their order.
-/

namespace ImportLint

/-- A check of a list takes each item with its index. -/
theorem checkEach_eq_mapM {α β ε : Type} (check : Nat → α → Except ε β) (i : Nat) (as : List α) :
    checkEach check i as = (as.zipIdx i).mapM fun a => check a.2 a.1 := by
  induction as generalizing i with
  | nil => rfl
  | cons a as ih => rw [checkEach, List.zipIdx_cons, List.mapM_cons, ih]

/-- A check that succeeds relates each item, with its index, to the result. -/
theorem checkEach_eq_ok_iff {α β ε : Type} {check : Nat → α → Except ε β} {i : Nat} {as : List α}
    {bs : List β} : checkEach check i as = .ok bs ↔
      List.Forall₂ (fun a b => check a.2 a.1 = .ok b) (as.zipIdx i) bs := by
  rw [checkEach_eq_mapM, mapM_eq_ok_iff]

/-- Where success does not depend on the index, the indices need not be told. -/
theorem checkEach_eq_ok_iff_forall₂ {α β ε : Type} {check : Nat → α → Except ε β} {R : α → β → Prop}
    (hcheck : ∀ i a b, check i a = .ok b ↔ R a b) {i : Nat} {as : List α} {bs : List β} :
    checkEach check i as = .ok bs ↔ List.Forall₂ R as bs := by
  rw [checkEach_eq_ok_iff]
  simp only [hcheck]
  induction as generalizing i bs with
  | nil => rw [List.zipIdx_nil, List.forall₂_nil_left_iff, List.forall₂_nil_left_iff]
  | cons a as ih =>
    rw [List.zipIdx_cons, List.forall₂_cons_left_iff, List.forall₂_cons_left_iff]
    simp only [ih]

/-! ## Checked entries -/

/-- What a written entry becomes when it is checked. -/
structure EntryText.Becomes (t : EntryText) (e : Entry) : Prop where
  target : Glob.Pattern.ofString? t.target = .ok e.target
  restrictions : List.Forall₂ (fun r p => Glob.Pattern.ofString? r = .ok p)
    t.restrictions e.restrictions
  nonempty : e.restrictions ≠ []
  docRef : e.docRef = t.docRef

/-- Restrictions become patterns in their order. -/
theorem checkEach_ofString?_eq_ok_iff {ofFault : Nat → Glob.PatternError → ConfigError}
    {i : Nat} {rs : List String} {ps : List Glob.Pattern} :
    checkEach (fun j r => (Glob.Pattern.ofString? r).mapError (ofFault j)) i rs = .ok ps ↔
      List.Forall₂ (fun r p => Glob.Pattern.ofString? r = .ok p) rs ps :=
  checkEach_eq_ok_iff_forall₂ fun _ _ _ => mapError_eq_ok_iff

/-- An entry is made of a text exactly if the text becomes it, however faults are named. -/
theorem Entry.ofText?_eq_ok_iff {ofTarget : Glob.PatternError → ConfigError}
    {ofRestriction : Nat → Glob.PatternError → ConfigError} {ofNone : ConfigError} {t : EntryText}
    {e : Entry} : Entry.ofText? ofTarget ofRestriction ofNone t = .ok e ↔ t.Becomes e := by
  unfold Entry.ofText?
  simp only [bind_eq_ok_iff, mapError_eq_ok_iff, checkEach_ofString?_eq_ok_iff]
  constructor
  · rintro ⟨target, htarget, ps, hps, h⟩
    by_cases hempty : ps.isEmpty = true
    · rw [if_pos hempty] at h
      cases h
    · rw [if_neg hempty] at h
      obtain rfl : _ = e := pure_eq_ok_iff.1 h
      exact ⟨htarget, hps, by simpa using hempty, rfl⟩
  · rintro ⟨htarget, hps, hne, hdoc⟩
    refine ⟨e.target, htarget, e.restrictions, hps, ?_⟩
    rw [if_neg (by simpa using hne), ← hdoc]
    rfl

/-- The index of an entry matters only for naming its faults. -/
theorem Entry.atIndex?_eq_ok_iff (i : Nat) (t : EntryText) (e : Entry) :
    Entry.atIndex? i t = .ok e ↔ t.Becomes e :=
  Entry.ofText?_eq_ok_iff

/-- The entries of a configuration are what the written ones become, in their order. -/
theorem Entry.ofTexts?_eq_ok_iff {ts : List EntryText} {es : List Entry} :
    Entry.ofTexts? ts = .ok es ↔ List.Forall₂ EntryText.Becomes ts es :=
  checkEach_eq_ok_iff_forall₂ Entry.atIndex?_eq_ok_iff

/-! ## Tables that say an entry -/

open Document

/-- Texts as a document. -/
def Document.ofStrings (ss : List String) : Document := .list (ss.map fun s => .string s.toList)

/-- What the members of a table say as an entry. -/
structure EntryText.IsSaid (t : EntryText) (members : List (List Char × Document)) : Prop where
  target : field? members "target" = some (some (.string t.target.toList))
  /-- A list, or a text that stands for a list of one. -/
  restrictions : field? members "restrictions" = some (some (.ofStrings t.restrictions)) ∨
    ∃ r, t.restrictions = [r] ∧ field? members "restrictions" = some (some (.string r.toList))
  doc : match t.docRef with
    | none => field? members "doc" = some none ∨ field? members "doc" = some (some .null)
    | some doc => field? members "doc" = some (some (.string doc.toList))

/-- Only a text is read as one. -/
theorem Document.string?_eq_some_iff {d : Document} {s : List Char} :
    d.string? = some s ↔ d = .string s := by
  cases d <;> simp [Document.string?]

/-- Only a list of texts is read as one. -/
theorem Document.strings?_eq_some_iff {d : Document} {ss : List (List Char)} :
    d.strings? = some ss ↔ d = .list (ss.map .string) := by
  cases d with
  | list ds =>
    rw [Document.strings?, mapM_eq_some_iff, Document.list.injEq]
    simp only [Document.string?_eq_some_iff]
    rw [← List.forall₂_eq_eq_eq, List.forall₂_map_right_iff]
  | _ => simp [Document.strings?]

/-- Restrictions are a list of texts, or a single text. -/
theorem Settings.restrictions?_eq_some_iff {d : Document} {ss : List (List Char)} :
    Settings.restrictions? d = some ss ↔ d = .list (ss.map .string) ∨ ∃ s,
      ss = [s] ∧ d = .string s := by
  unfold Settings.restrictions?
  split
  · next s => simp [eq_comm]
  · next hd =>
    rw [Document.strings?_eq_some_iff, or_iff_left]
    rintro ⟨s, -, rfl⟩
    exact hd s rfl

/-- The fields of a table are read name by name. -/
theorem Document.fields?_table_eq_some_iff {conv : Conventions} {names : List String}
    {members : List (List Char × Document)} {fs : List (Option Document)} :
    fields? conv names (.table members) = some fs ↔
      List.Forall₂ (fun name f => field? members name = some f) names fs :=
  mapM_eq_some_iff

/-- A text that may be missing, or be written as nothing. -/
theorem Document.orDefault_optional_string?_eq_some_iff {d : Option Document}
    {s : Option (List Char)} :
    orDefault none (optional? string?) d = some s ↔
      match s with
      | none => d = none ∨ d = some .null
      | some s => d = some (.string s) := by
  cases d with
  | none => cases s <;> simp [orDefault]
  | some d => cases d <;> cases s <;> simp [orDefault, optional?, string?]

/-- The reading of a table as an entry finds what its members say. -/
theorem Settings.entryText?_table_eq_some_iff {conv : Conventions}
    {members : List (List Char × Document)} {t : EntryText} :
    Settings.entryText? conv (.table members) = some t ↔ t.IsSaid members := by
  unfold Settings.entryText?
  rw [Option.bind_eq_bind, Option.bind_eq_some_iff]
  simp only [Document.fields?_table_eq_some_iff]
  constructor
  · -- Three names, so three fields.
    rintro ⟨_, _ | ⟨htarget, _ | ⟨hrestrictions, _ | ⟨hdoc, _ | _⟩⟩⟩, h⟩
    split at h
    · next target restrictions doc hfields =>
      simp only [List.cons.injEq, and_true] at hfields
      obtain ⟨rfl, rfl, rfl⟩ := hfields
      simp only [Option.bind_eq_bind, Option.bind_eq_some_iff, Option.pure_def, Option.some.injEq,
        Document.string?_eq_some_iff, Settings.restrictions?_eq_some_iff,
        Document.orDefault_optional_string?_eq_some_iff] at h
      obtain ⟨s, rfl, rs, hrs, doc', hdoc', rfl⟩ := h
      refine ⟨by simpa using htarget, ?_, ?_⟩
      · rcases hrs with rfl | ⟨r, rfl, rfl⟩
        · exact .inl (by simpa [Document.ofStrings, Function.comp_def] using hrestrictions)
        · exact .inr ⟨.ofList r, rfl, by simpa using hrestrictions⟩
      · cases doc' with
        | none => simpa [hdoc] using hdoc'
        | some s => simpa [hdoc] using hdoc'
    · cases h
  · rintro ⟨htarget, hrestrictions, hdoc⟩
    -- Either way of writing nothing is read as nothing, and a text alone as a list of it.
    obtain ⟨d, hd, hdoc⟩ : ∃ d, field? members "doc" = some d ∧
        orDefault none (optional? string?) d = some (t.docRef.map String.toList) := by
      cases hdocRef : t.docRef with
      | none =>
        rw [hdocRef] at hdoc
        rcases hdoc with hdoc | hdoc <;> exact ⟨_, hdoc, rfl⟩
      | some doc =>
        rw [hdocRef] at hdoc
        exact ⟨_, hdoc, rfl⟩
    obtain ⟨r, hr, hrestrictions⟩ : ∃ r, field? members "restrictions" = some (some r) ∧
        restrictions? r = some (t.restrictions.map String.toList) := by
      simp only [Settings.restrictions?_eq_some_iff]
      rcases hrestrictions with hr | ⟨r, hr, hfield⟩
      · exact ⟨_, hr, .inl (by simp [Document.ofStrings])⟩
      · exact ⟨_, hfield, .inr ⟨r.toList, by simp [hr], rfl⟩⟩
    refine ⟨_, .cons htarget (.cons hr (.cons hd .nil)), ?_⟩
    simp [Document.string?, hrestrictions, hdoc, Function.comp_def]

end ImportLint

import ImportLint.Proofs.Analysis.Interference

/-!
# Editing a configuration

An entry that is relaxed by a further restriction selects the same files and allows more in them: of
the violations some are gone, none is new, and those by modules that are not in quotes stay. Entries
that are appended come after all others, so they govern only files that no entry has selected
before, and add nothing in any other file.
-/

namespace ImportLint

/-! ## Violations that thin out -/

namespace Violation

/-- Where a violation is, and its code. -/
def key (v : Violation) : Location × String := (v.location, v.code)

/-- Whether a violation is one by a module that is not in quotes. -/
def isUnquoted (v : Violation) : Bool := v.code == "IMP002"

end Violation

/-- Violations **thin out** to others if, by place and code, some of them are left in their order,
and if those by modules that are not in quotes are all left as they are. -/
structure ThinsOut (vs ws : List Violation) : Prop where
  key : (ws.map Violation.key).Sublist (vs.map Violation.key)
  unquoted : ws.filter Violation.isUnquoted = vs.filter Violation.isUnquoted

namespace ThinsOut

variable {vs ws vs' ws' : List Violation}

/-- Violations thin out to themselves. -/
theorem refl (vs : List Violation) : ThinsOut vs vs := ⟨.refl _, rfl⟩

/-- What thins out in two parts thins out. -/
theorem append (h : ThinsOut vs ws) (h' : ThinsOut vs' ws') : ThinsOut (vs ++ vs') (ws ++ ws') where
  key := by simpa using h.key.append h'.key
  unquoted := by rw [List.filter_append, List.filter_append, h.unquoted, h'.unquoted]

/-- What thins out for each item thins out for all. -/
theorem flatMap {α : Type} {f g : α → List Violation} {xs : List α}
    (h : ∀ x ∈ xs, ThinsOut (f x) (g x)) : ThinsOut (xs.flatMap f) (xs.flatMap g) := by
  induction xs with
  | nil => exact refl []
  | cons x xs ih =>
    obtain ⟨hx, hxs⟩ := List.forall_mem_cons.1 h
    rw [List.flatMap_cons, List.flatMap_cons]
    exact hx.append (ih hxs)

/-- What thins out does so when it is sorted. -/
theorem isStableSort {rs rs' : List Violation} (h : ThinsOut vs ws)
    (hvs : IsStableSort Report.inOrder vs rs) (hws : IsStableSort Report.inOrder ws rs') :
    ThinsOut rs rs' where
  key := by
    -- The place alone decides the order, so keys are sorted like violations.
    have htotal (x y : Location × String) :
        ((x.1.compare y.1).isLE || (y.1.compare x.1).isLE) = true :=
      isLE_total Location.compare x.1 y.1
    have htrans (x y z : Location × String) (hxy : (x.1.compare y.1).isLE = true)
        (hyz : (y.1.compare z.1).isLE = true) : (x.1.compare z.1).isLE = true :=
      isLE_trans Location.compare x.1 y.1 z.1 hxy hyz
    exact IsStableSort.map_sublist htotal htrans (fun v w => rfl) hvs hws h.key
  unquoted := by
    have hrs := hvs.filter Violation.isUnquoted
    have hrs' := hws.filter Violation.isUnquoted
    rw [h.unquoted] at hrs'
    exact hrs'.unique Report.inOrder_total hrs

end ThinsOut

/-! ## Relaxed entries -/

/-- An entry is **relaxed** to another one by further restrictions. -/
structure Entry.RelaxesTo (d e : Entry) : Prop where
  target : e.target = d.target
  restrictions : d.restrictions ⊆ e.restrictions
  docRef : e.docRef = d.docRef

namespace Entry.RelaxesTo

/-- An entry relaxes to itself. -/
theorem refl (e : Entry) : e.RelaxesTo e := ⟨rfl, fun _ h => h, rfl⟩

variable {ask : Matcher Id} {severity : Severity} {file : Path} {d e : Entry} (h : d.RelaxesTo e)

include h

/-- A relaxed entry selects the same files. -/
theorem selects_iff : e.Selects ask file ↔ d.Selects ask file := by
  rw [Selects, Selects, h.target]

/-- An import breaks the relaxed rule as it has broken the rule, or no longer. -/
theorem breach?_eq_or (i : Import) : Id.run (breach? ask e i) = Id.run (breach? ask d i) ∨
    Id.run (breach? ask e i) = none ∧ Id.run (breach? ask d i) = some .restricted := by
  by_cases hquotes : ∃ s, Quotes i.specifier s
  · obtain ⟨s, hs⟩ := hquotes
    rw [breach?_of_quotes hs, breach?_of_quotes hs]
    by_cases hdot : s.head? = some '.'
    · exact .inl (by rw [if_pos hdot, if_pos hdot])
    · rw [if_neg hdot, if_neg hdot]
      by_cases hallowed : e.restrictions.any (fun r => Id.run (ask ⟨String.ofList s, r⟩)) = true
      · rw [if_pos hallowed]
        split
        · exact .inl rfl
        · exact .inr ⟨rfl, rfl⟩
      · -- What the relaxed entry does not allow has not been allowed before.
        have hallowed' :
            ¬ d.restrictions.any (fun r => Id.run (ask ⟨String.ofList s, r⟩)) = true := by
          intro hany
          obtain ⟨r, hr, hask⟩ := List.any_eq_true.1 hany
          exact hallowed (List.any_eq_true.2 ⟨r, h.restrictions hr, hask⟩)
        exact .inl (by rw [if_neg hallowed, if_neg hallowed'])
  · rw [not_exists] at hquotes
    exact .inl (by rw [breach?_of_not_quotes hquotes, breach?_of_not_quotes hquotes])

/-- The violations of a breach of both entries thin out, as they have one key. -/
theorem thinsOut_violation (i : Import) (b : Breach) :
    ThinsOut [b.violation severity d file i] [b.violation severity e file i] := by
  cases b with
  | unquoted =>
    have heq : Breach.unquoted.violation severity e file i =
        Breach.unquoted.violation severity d file i := by
      rw [Breach.violation, Breach.violation, h.docRef]
      rfl
    rw [heq]
    exact .refl _
  | restricted => exact ⟨.refl _, rfl⟩

/-- The violations of the imports of a file thin out. -/
theorem thinsOut_checkImports (imports : List Import) :
    ThinsOut (Id.run (checkImports ask severity d file imports))
      (Id.run (checkImports ask severity e file imports)) := by
  induction imports with
  | nil => exact .refl []
  | cons i is ih =>
    rw [checkImports_cons, checkImports_cons]
    refine ThinsOut.append ?_ ih
    rcases (h.breach?_eq_or i : _ = Id.run (breach? ask d i) ∨ _) with heq | ⟨hnone, hrestricted⟩
    · rw [heq]
      cases Id.run (breach? ask d i) with
      | none => exact .refl []
      | some b => exact h.thinsOut_violation i b
    · rw [hnone, hrestricted]
      exact ⟨List.nil_sublist _, rfl⟩

end Entry.RelaxesTo

/-- Where entries are relaxed, a relaxed entry governs what an entry has governed. -/
theorem rel_select {ask : Matcher Id} {file : Path} {es es' : List Entry}
    (h : List.Forall₂ Entry.RelaxesTo es es') :
    Option.Rel Entry.RelaxesTo (Id.run (select ask es file)) (Id.run (select ask es' file)) := by
  rw [select_eq_find?, select_eq_find?]
  induction h with
  | nil => exact .none
  | @cons d e es es' hd _ ih =>
    rw [List.find?_cons, List.find?_cons, hd.target]
    split
    · exact .some hd
    · exact ih

namespace Analyzer

variable {a : Analyzer} {m : Machine} {es : List Entry}

/-- An analyzer with other entries. -/
def withEntries (a : Analyzer) (es : List Entry) : Analyzer :=
  { a with config := { a.config with entries := es } }

/-- An analyzer with other entries is what a configuration with these entries is made into. -/
theorem build_withEntries (workingDirectory base : Path) (config : Config) (excludes : List String)
    (extractors : List Extractor) (failsOnParseError : Bool) (es : List Entry) :
    build workingDirectory base { config with entries := es } excludes
      extractors failsOnParseError =
      (build workingDirectory base config excludes extractors failsOnParseError).map
        (·.withEntries es) := by
  unfold build
  cases ((excludes ++ config.exclude).mapM Glob.Pattern.ofString?).mapError
    AnalysisError.exclude <;> rfl

/-- Entries have no part in what is discovered. -/
theorem discover_withEntries (a : Analyzer) (m : Machine) (es : List Entry) :
    (a.withEntries es).discover m = a.discover m := rfl

/-! ## Relaxing entries -/

section Relaxed

variable (h : List.Forall₂ Entry.RelaxesTo a.config.entries es) {file : Path}

include h

/-- A file is checked as before, but its violations thin out. -/
theorem analyzeFile_withEntries (m : Machine) (file : Path) :
    (∃ e, a.analyzeFile m file = .error e ∧ (a.withEntries es).analyzeFile m file = .error e) ∨
    ∃ vs ws, a.analyzeFile m file = .ok vs ∧ (a.withEntries es).analyzeFile m file = .ok ws ∧
      ThinsOut vs ws := by
  have hextractor : (a.withEntries es).extractorFor? file = a.extractorFor? file := rfl
  have hgoverning : Option.Rel Entry.RelaxesTo (a.governing? (a.relative file))
      ((a.withEntries es).governing? ((a.withEntries es).relative file)) := rel_select h
  rw [analyzeFile, analyzeFile, hextractor]
  cases a.extractorFor? file with
  | none => exact .inr ⟨[], [], rfl, rfl, .refl []⟩
  | some x =>
    generalize a.governing? (a.relative file) = d at hgoverning ⊢
    generalize (a.withEntries es).governing? ((a.withEntries es).relative file) = e at hgoverning ⊢
    cases hgoverning with
    | none => exact .inr ⟨[], [], rfl, rfl, .refl []⟩
    | @some d e hd =>
      cases m.readText? file with
      | none => exact .inl ⟨_, rfl, rfl⟩
      | some source =>
        simp only [checkSource]
        cases x.1.read source x.2 with
        | error cause => exact .inl ⟨_, rfl, rfl⟩
        | ok extraction => exact .inr ⟨_, _, rfl, rfl, hd.thinsOut_checkImports extraction.imports⟩

/-- A file fails in the same way with other entries. -/
theorem failsWith_withEntries_iff {e : AnalysisError} :
    (a.withEntries es).FailsWith m file e ↔ a.FailsWith m file e := by
  unfold FailsWith
  rcases analyzeFile_withEntries h m file with ⟨e, he, he'⟩ | ⟨vs, ws, hvs, hws, -⟩
  · rw [he, he']
    rfl
  · simp [hvs, hws]

/-- A file can be parsed with other entries exactly if it can without. -/
theorem isUnparsable_withEntries : (a.withEntries es).isUnparsable m = a.isUnparsable m := by
  funext file
  unfold isUnparsable
  rcases analyzeFile_withEntries h m file with ⟨e, he, he'⟩ | ⟨vs, ws, hvs, hws, -⟩
  · rw [he, he']
  · rw [hvs, hws]

/-- The violations of a file thin out with relaxed entries. -/
theorem thinsOut_violationsOf (file : Path) :
    ThinsOut (a.violationsOf m file) ((a.withEntries es).violationsOf m file) := by
  unfold violationsOf
  rcases analyzeFile_withEntries h m file with ⟨e, he, he'⟩ | ⟨vs, ws, hvs, hws, hthin⟩
  · rw [he, he']
    exact .refl []
  · rw [hvs, hws]
    exact hthin

/-- An analysis that succeeds does so when entries are relaxed. It counts as many files, and the
violations thin out. -/
theorem exists_analyze_withEntries {r : Report} (hr : a.analyze m = .ok r) :
    ∃ r', (a.withEntries es).analyze m = .ok r' ∧ ThinsOut r.violations r'.violations ∧
      r'.filesChecked = r.filesChecked := by
  obtain ⟨files, hfiles, -⟩ := bind_eq_ok_iff.1 hr
  obtain ⟨hnone, hchecked, hsort⟩ := (analyze_eq_ok_iff hfiles).1 hr
  have hfiles' : (a.withEntries es).discover m = .ok files :=
    (discover_withEntries a m es).trans hfiles
  have hnone' : ∀ f ∈ files, ∀ e, ¬ (a.withEntries es).FailsWith m f e := by
    intro f hf e
    rw [failsWith_withEntries_iff h]
    exact hnone f hf e
  obtain ⟨r', hr', hchecked', hsort'⟩ := analyze_eq_ok hfiles' hnone'
  rw [isUnparsable_withEntries h] at hchecked'
  -- The violations of each file thin out, and sorting goes by place, which is part of the key.
  have hthin :
      ThinsOut (files.flatMap (a.violationsOf m))
        (files.flatMap ((a.withEntries es).violationsOf m)) :=
    .flatMap fun f _ => thinsOut_violationsOf h f
  exact ⟨r', hr', hthin.isStableSort hsort hsort', by omega⟩

end Relaxed

/-- An entry with a further restriction among its own is relaxed, and no other entry is touched. -/
theorem forall₂_relaxesTo_insert (before after : List Entry) {e : Entry}
    {left right : List Glob.Pattern} (he : e.restrictions = left ++ right) (added : Glob.Pattern) :
    List.Forall₂ Entry.RelaxesTo (before ++ e :: after)
      (before ++ { e with restrictions := left ++ added :: right } :: after) := by
  have hrelaxes : e.RelaxesTo { e with restrictions := left ++ added :: right } := by
    refine ⟨rfl, ?_, rfl⟩
    intro r hr
    rw [he, List.mem_append] at hr
    rw [List.mem_append, List.mem_cons]
    rcases hr with hr | hr
    · exact .inl hr
    · exact .inr (.inr hr)
  have hrefl (es : List Entry) : List.Forall₂ Entry.RelaxesTo es es :=
    List.forall₂_same.2 fun d _ => .refl d
  exact List.rel_append (hrefl before) (.cons hrelaxes (hrefl after))

/-! ## Appending entries -/

section Appended

variable {more : List Entry} {file : Path}

/-- A file that some entry has selected is checked as before. -/
theorem analyzeFile_append_of_selects
    (h : ∃ e ∈ a.config.entries, e.Selects Matcher.glob (a.relative file)) :
    (a.withEntries (a.config.entries ++ more)).analyzeFile m file = a.analyzeFile m file := by
  have hgoverning : (a.withEntries (a.config.entries ++ more)).governing? (a.relative file) =
      a.governing? (a.relative file) := by
    rcases exists_governs_or_not_selects Matcher.glob a.config.entries (a.relative file) with
      ⟨e, he⟩ | hnone
    · -- What comes after the entry that governs has no part in the selection.
      obtain ⟨before, after, hsplit, hbefore, hselects⟩ := he
      rw [governing?_eq_some_iff.2 ⟨before, after, hsplit, hbefore, hselects⟩,
        governing?_eq_some_iff]
      exact ⟨before, after ++ more, by simp [withEntries, hsplit], hbefore, hselects⟩
    · obtain ⟨e, he, hselects⟩ := h
      exact absurd hselects (hnone e he)
  have hextractor : (a.withEntries (a.config.entries ++ more)).extractorFor? file =
      a.extractorFor? file := rfl
  have hrelative : (a.withEntries (a.config.entries ++ more)).relative file = a.relative file := rfl
  rw [analyzeFile, analyzeFile, hextractor, hrelative, hgoverning]
  rfl

/-- Of the violations, those in files that some entry has selected are the ones from before. -/
theorem filter_flatMap_violationsOf_append (files : List Path) :
    (files.flatMap ((a.withEntries (a.config.entries ++ more)).violationsOf m)).filter
        (fun v => ∃ e ∈ a.config.entries, e.Selects Matcher.glob v.location.file) =
      files.flatMap (a.violationsOf m) := by
  rw [filter_flatMap_violationsOf fun p => ∃ e ∈ a.config.entries, e.Selects Matcher.glob p]
  congr 1
  funext f
  by_cases hselects : ∃ e ∈ a.config.entries, e.Selects Matcher.glob (a.relative f)
  · have hselects' : decide (∃ e ∈ a.config.entries, e.Selects Matcher.glob
        ((a.withEntries (a.config.entries ++ more)).relative f)) = true := decide_eq_true hselects
    rw [if_pos hselects', violationsOf, analyzeFile_append_of_selects hselects]
    rfl
  · have hselects' : ¬ decide (∃ e ∈ a.config.entries, e.Selects Matcher.glob
        ((a.withEntries (a.config.entries ++ more)).relative f)) = true := by
      rw [decide_eq_true_iff]
      exact hselects
    have hnone : ∀ e ∈ a.config.entries, ¬ e.Selects Matcher.glob (a.relative f) :=
      fun e he hsel => hselects ⟨e, he, hsel⟩
    rw [if_neg hselects', violationsOf, analyzeFile_of_not_selects hnone]

/-- Analyses that succeed find the same in files that some entry has selected, and what is new in
others. -/
theorem filter_violations_append {r r' : Report} (hr : a.analyze m = .ok r)
    (hr' : (a.withEntries (a.config.entries ++ more)).analyze m = .ok r') :
    r'.violations.filter (fun v => ∃ e ∈ a.config.entries, e.Selects Matcher.glob v.location.file) =
      r.violations := by
  obtain ⟨files, hfiles, -⟩ := bind_eq_ok_iff.1 hr
  have hfiles' : (a.withEntries (a.config.entries ++ more)).discover m = .ok files :=
    (discover_withEntries a m _).trans hfiles
  obtain ⟨-, -, hsort⟩ := (analyze_eq_ok_iff hfiles).1 hr
  obtain ⟨-, -, hsort'⟩ := (analyze_eq_ok_iff hfiles').1 hr'
  have hfilter := hsort'.filter fun v => ∃ e ∈ a.config.entries,
    e.Selects Matcher.glob v.location.file
  rw [filter_flatMap_violationsOf_append] at hfilter
  exact hfilter.unique Report.inOrder_total hsort

end Appended

/-- **Edits act monotonically.** If an analysis succeeds, it does so with a further restriction
anywhere in an entry: it counts as many files, the violations by place and code are some of the
former ones in their order, and those by modules that are not in quotes are all left as they are.
With entries appended, an analysis that succeeds as well has exactly the former violations in the
files that some entry has selected before, and all others in files that none has. -/
theorem analyze_edited (a : Analyzer) (m : Machine) {r : Report} (hr : a.analyze m = .ok r) :
    (∀ (before after : List Entry) (e : Entry) (left right : List Glob.Pattern)
      (added : Glob.Pattern),
      a.config.entries = before ++ e :: after → e.restrictions = left ++ right →
        ∃ r', (a.withEntries
            (before ++ { e with restrictions := left ++ added :: right } :: after)).analyze m =
              .ok r' ∧
          (r'.violations.map fun v => (v.location, v.code)).Sublist
            (r.violations.map fun v => (v.location, v.code)) ∧
          r'.violations.filter (fun v => v.code == "IMP002") =
            r.violations.filter (fun v => v.code == "IMP002") ∧
          r'.filesChecked = r.filesChecked) ∧
    ∀ (more : List Entry) (r' : Report),
      (a.withEntries (a.config.entries ++ more)).analyze m = .ok r' →
      r'.violations.filter (fun v => ∃ e ∈ a.config.entries,
        e.Selects Matcher.glob v.location.file) =
          r.violations ∧
        ∀ v ∈ r'.violations, v ∈ r.violations ∨
          ∀ e ∈ a.config.entries, ¬ e.Selects Matcher.glob v.location.file := by
  constructor
  · -- The restriction relaxes its entry, and the others stay.
    intro before after e left right added hentries he
    have hrelaxes := forall₂_relaxesTo_insert before after he added
    rw [← hentries] at hrelaxes
    obtain ⟨r', hr', hthin, hchecked⟩ := exists_analyze_withEntries hrelaxes hr
    exact ⟨r', hr', hthin.key, hthin.unquoted, hchecked⟩
  · intro more r' hr'
    have hfilter := filter_violations_append hr hr'
    refine ⟨hfilter, fun v hv => ?_⟩
    -- What some entry has selected is found as before.
    by_cases hselects : ∃ e ∈ a.config.entries, e.Selects Matcher.glob v.location.file
    · rw [← hfilter]
      exact .inl (List.mem_filter.2 ⟨hv, decide_eq_true hselects⟩)
    · exact .inr fun e he hsel => hselects ⟨e, he, hsel⟩

/-- A restriction that only the text `x` satisfies. -/
def Edits.restriction : Glob.Pattern := ⟨"x", [⟨['x'], [.char 'x']⟩]⟩

/-- An entry that selects all files and allows no import. -/
def Edits.entry : Entry := ⟨⟨"**", [⟨"**".toList, [.anySegments]⟩]⟩, [], none⟩

/-- A restriction that one of two imports satisfies is added to the only entry; and an entry is
appended that selects another file too. -/
theorem analyze_edited_lines : ∃ r r' r'',
    Interference.analyzer.analyze
      (Interference.machine (Utf8.encode "'x'\ny".toList) [] (Utf8.encode "'z'".toList)) =
        .ok r ∧
      (Interference.analyzer.withEntries
        [{ Source.entry with restrictions := [Edits.restriction] }]).analyze
        (Interference.machine (Utf8.encode "'x'\ny".toList) [] (Utf8.encode "'z'".toList)) =
          .ok r' ∧
      (r'.violations.map fun v => (v.location, v.code)).Sublist (r.violations.map fun v =>
        (v.location, v.code)) ∧
      (Interference.analyzer.withEntries [Source.entry, Edits.entry]).analyze
        (Interference.machine (Utf8.encode "'x'\ny".toList) [] (Utf8.encode "'z'".toList)) =
          .ok r'' ∧
      r''.violations.filter (fun v => ∃ e ∈ [Source.entry],
        e.Selects Matcher.glob v.location.file) =
        r.violations := by
  obtain ⟨r, hr⟩ := Interference.exists_report "'x'\ny".toList [] "'z'".toList
  obtain ⟨hinserted, happended⟩ := analyze_edited _ _ hr
  obtain ⟨r', hr', hsublist, -⟩ := hinserted [] [] Source.entry [] [] Edits.restriction rfl rfl
  have happended' : ∃ r'', (Interference.analyzer.withEntries [Source.entry, Edits.entry]).analyze
      (Interference.machine (Utf8.encode "'x'\ny".toList)
        (Utf8.encode []) (Utf8.encode "'z'".toList)) = .ok r'' := by
    refine Interference.exists_report_of_discover ?_ ?_ ?_ <;> rfl
  obtain ⟨r'', hr''⟩ := happended'
  exact ⟨r, r', r'', hr, hr', hsublist, hr'', (happended [Edits.entry] r'' hr'').1⟩

end Analyzer

end ImportLint

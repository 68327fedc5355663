import ImportLint.Proofs.Config.Entries

/-!
# Lists of tables as configurations in JSON

A list of tables that is no list of entries is read as a record next, its items in the places of the
fields. The first table is then the settings of the analyzer, and the next two are severities
written as tables; a fourth would have to be the list of the entries, which a table is not. So what
is read that way is a configuration without entries.
-/

namespace ImportLint

open Document

/-! ## Lists of entries -/

/-- A list is read as entries if each of its documents is read as one. -/
theorem Settings.entries?_list_eq_some_iff {conv : Conventions} {ds : List Document}
    {ts : List EntryText} : Settings.entries? conv (.list ds) = some ts ↔
      List.Forall₂ (fun d t => Settings.entryText? conv d = some t) ds ts :=
  mapM_eq_some_iff

/-- A list is not read as entries if one of its documents is not read as one. -/
theorem Settings.entries?_list_eq_none_iff {conv : Conventions} {ds : List Document} :
    Settings.entries? conv (.list ds) = none ↔ ∃ d ∈ ds, Settings.entryText? conv d = none :=
  mapM_eq_none_iff

/-! ## Lists of tables as records -/

/-- Whether a document is a table. -/
def Document.isTable : Document → Bool
  | .table _ => true
  | _ => false

/-- Whether a document is a table is decided by its constructor. -/
theorem Document.isTable_iff {d : Document} : d.isTable = true ↔ ∃ members, d = .table members := by
  cases d <;> simp [Document.isTable]

/-- Whether documents are settings of the analyzer and at most two severities. -/
def isSettings : List Document → Bool
  | [] => false
  | first :: others =>
    others.length ≤ 2 && (Settings.analyzer? .jsonChoice first).isSome &&
      others.all fun d => (severity? .jsonChoice d).isSome

/-- Documents are settings if the first is one of the analyzer and the others, two at most, are
severities. -/
theorem isSettings_cons_iff {first : Document} {others : List Document} :
    isSettings (first :: others) = true ↔ others.length ≤ 2 ∧
      (Settings.analyzer? .jsonChoice first).isSome = true ∧
        ∀ d ∈ others, (severity? .jsonChoice d).isSome = true := by
  simp [isSettings, and_assoc]

/-- The settings of a configuration that says nothing but its entries. -/
def Settings.ofEntries (ts : List EntryText) : Settings :=
  ⟨defaultAnalyzer.1, defaultAnalyzer.2.1, defaultAnalyzer.2.2, default, default, ts⟩

/-- Such settings make a configuration with defaults. -/
theorem Settings.check_ofEntries (ts : List EntryText) :
    (ofEntries ts).check = (Entry.ofTexts? ts).map Config.ofEntries := by
  unfold Settings.check Settings.ofEntries
  cases Entry.ofTexts? ts <;> rfl

/-- **The defaults agree**: those of the fields of a table with those that stand for the table, and
those of a record with those of a configuration. -/
theorem Settings.defaults_agree (conv : Conventions) :
    analyzer? conv (.table []) = some defaultAnalyzer ∧
    record? conv (.table []) = some (ofEntries []) ∧
    record? conv (.table [("analyzer".toList, .table [])]) = some (ofEntries []) ∧
    (ofEntries []).check = .ok {} :=
  ⟨rfl, rfl, rfl, rfl⟩

/-- A record written as a list: its fields in their order, those at the end left out. -/
theorem Settings.record?_list {ds : List Document} (hlen : ds.length ≤ 4) :
    Settings.record? .jsonChoice (.list ds) = (do
      let (root, exclude, respect) ←
        orDefault Settings.defaultAnalyzer (Settings.analyzer? .jsonChoice) ds[0]?
      let severity ← orDefault default (severity? .jsonChoice) ds[1]?
      let failOn ← orDefault default (severity? .jsonChoice) ds[2]?
      let entries ← orDefault [] (Settings.entries? .jsonChoice) ds[3]?
      pure ⟨root, exclude, respect, severity, failOn, entries⟩) := by
  rcases ds with _ | ⟨d₁, _ | ⟨d₂, _ | ⟨d₃, _ | ⟨d₄, _ | ⟨d₅, ds⟩⟩⟩⟩⟩
  · rfl
  · rfl
  · rfl
  · rfl
  · rfl
  · simp only [List.length_cons] at hlen
    omega

/-- A list of more than four documents is no record. -/
theorem Settings.record?_list_of_lt {ds : List Document} (hlen : 4 < ds.length) :
    Settings.record? .jsonChoice (.list ds) = none := by
  have hfields :
      fields? .jsonChoice ["analyzer", "severity", "fail_on", "import-patterns"] (.list ds) =
      none := by
    rw [fields?, if_neg]
    simpa [Conventions.jsonChoice] using hlen
  rw [Settings.record?, hfields]
  rfl

/-- A document that is there is read. -/
@[simp] theorem Document.orDefault_some {α : Type} (default : α) (f : Document → Option α)
    (d : Document) : orDefault default f (some d) = f d := rfl

/-- The default stands for a document that is missing. -/
@[simp] theorem Document.orDefault_none {α : Type} (default : α) (f : Document → Option α) :
    orDefault default f none = some default := rfl

/-- Only a document that is there can fail to be read. -/
theorem Document.isSome_orDefault {α : Type} {default : α} {f : Document → Option α}
    {d : Option Document} : (orDefault default f d).isSome = true ↔
      ∀ d' ∈ d, (f d').isSome = true := by
  cases d <;> simp [orDefault]

/-- A list of tables that is read as a record gives no entries. -/
theorem Settings.entries_eq_nil_of_record? {ds : List Document}
    (htables : ∀ d ∈ ds, d.isTable = true) {s : Settings}
    (h : Settings.record? .jsonChoice (.list ds) = some s) :
    s.entries = [] ∧ (ds ≠ [] → isSettings ds = true) := by
  have hlen : ds.length ≤ 4 := by
    by_contra hlen
    rw [Settings.record?_list_of_lt (by omega)] at h
    cases h
  rw [Settings.record?_list hlen] at h
  simp only [Option.bind_eq_bind, Option.bind_eq_some_iff, Option.pure_def, Option.some.injEq] at h
  obtain ⟨⟨root, exclude, respect⟩, hanalyzer, severity, hseverity, failOn,
    hfailOn, entries, hentries, rfl⟩ := h
  -- The fourth place is empty, since a table is no list of entries.
  have hfourth : ds[3]? = none := by
    by_contra hne
    obtain ⟨d, hd⟩ := Option.ne_none_iff_exists'.1 hne
    obtain ⟨members, rfl⟩ := Document.isTable_iff.1 (htables d (List.mem_of_getElem? hd))
    rw [hd] at hentries
    cases hentries
  rw [hfourth] at hentries
  refine ⟨(Option.some.inj hentries).symm, fun hne => ?_⟩
  obtain ⟨first, others, rfl⟩ := List.exists_cons_of_ne_nil hne
  have hothers : others.length ≤ 2 := by
    rw [List.getElem?_eq_none_iff, List.length_cons] at hfourth
    omega
  refine isSettings_cons_iff.2 ⟨hothers, ?_, ?_⟩
  · exact Option.isSome_of_eq_some hanalyzer
  · intro d hd
    match others, hothers with
    | [d₂], _ =>
      obtain rfl : d = d₂ := by simpa using hd
      exact Option.isSome_of_eq_some hseverity
    | [d₂, d₃], _ =>
      rcases List.mem_cons.1 hd with rfl | hd
      · exact Option.isSome_of_eq_some hseverity
      · obtain rfl : d = d₃ := by simpa using hd
        exact Option.isSome_of_eq_some hfailOn

/-- Settings can be read as a record. -/
theorem exists_record?_of_isSettings {ds : List Document} (h : isSettings ds = true) :
    ∃ s, Settings.record? .jsonChoice (.list ds) = some s := by
  cases ds with
  | nil => cases h
  | cons first others =>
    obtain ⟨hothers, hanalyzer, hseverities⟩ := isSettings_cons_iff.1 h
    have hseverity (i : Nat) : ∃ v,
        orDefault default (severity? .jsonChoice) others[i]? = some v := by
      refine Option.isSome_iff_exists.1 (Document.isSome_orDefault.2 fun d hd => ?_)
      exact hseverities d (List.mem_of_getElem? hd)
    obtain ⟨⟨root, exclude, respect⟩, hanalyzer⟩ := Option.isSome_iff_exists.1 hanalyzer
    obtain ⟨severity, hseverity₀⟩ := hseverity 0
    obtain ⟨failOn, hseverity₁⟩ := hseverity 1
    -- There is no fourth item, so the entries are left out.
    have hfourth : others[2]? = none := List.getElem?_eq_none hothers
    refine ⟨⟨root, exclude, respect, severity, failOn, []⟩, ?_⟩
    have hlen : (first :: others).length ≤ 4 := by
      rw [List.length_cons]
      omega
    rw [Settings.record?_list hlen]
    simp [hanalyzer, hseverity₀, hseverity₁, hfourth]

/-! ## Reading -/

/-- Whether a document can be taken up: not too deep, and without values that have no place. -/
def Config.TakesUp (d : Document) : Prop :=
  d.depth ≤ Config.maxDepth ∧ d.holdsThroughout Config.isSound = true

section Read

variable {text : String} {d : Document} (hread : Json.read text.toList = some d)

include hread

/-- What a JSON text is read as depends on the document alone. -/
theorem Config.parseJson_eq_ofJson (htakes : Config.TakesUp d) :
    Config.parseJson text = Config.ofJson d := by
  obtain ⟨⟨d', rest⟩, hfront, hrest⟩ := Option.bind_eq_some_iff.1 hread
  obtain ⟨hblank, rfl⟩ : (Json.skipBlanks rest).isEmpty = true ∧ d' = d := by simpa using hrest
  have hdepth : ¬ (Config.maxDepth < d'.depth || !d'.holdsThroughout Config.isSound) = true := by
    simpa [Config.TakesUp] using htakes
  unfold Config.parseJson
  simp only [hfront]
  rw [if_neg hdepth]
  split
  · -- Without a reading there is the same error, whether or not something follows.
    next hnone =>
    obtain ⟨hentries, hrecord⟩ : Settings.entries? .jsonChoice d' = none ∧
        Settings.record? .jsonChoice d' = none := by simpa using hnone
    rw [Config.ofJson, hentries]
    simp only [hrecord]
  · rfl

/-- A text whose document cannot be taken up is malformed. -/
theorem Config.parseJson_eq_malformed (htakes : ¬ Config.TakesUp d) :
    Config.parseJson text = .error .malformed := by
  obtain ⟨⟨d', rest⟩, hfront, hrest⟩ := Option.bind_eq_some_iff.1 hread
  obtain ⟨hblank, rfl⟩ : (Json.skipBlanks rest).isEmpty = true ∧ d' = d := by simpa using hrest
  have hdepth : (Config.maxDepth < d'.depth || !d'.holdsThroughout Config.isSound) = true := by
    by_contra hdepth
    exact htakes (by simpa [Config.TakesUp] using hdepth)
  unfold Config.parseJson
  simp only [hfront]
  rw [if_pos hdepth]

/-- A text is read as a configuration if its document can be taken up and makes that configuration.
-/
theorem Config.parseJson_eq_ok_iff {c : Config} :
    Config.parseJson text = .ok c ↔ Config.TakesUp d ∧ Config.ofJson d = .ok c := by
  by_cases htakes : Config.TakesUp d
  · rw [Config.parseJson_eq_ofJson hread htakes, and_iff_right htakes]
  · simp [Config.parseJson_eq_malformed hread htakes, htakes]

end Read

/-- What an entry of a list has become: the patterns made from the texts that its table says. -/
def IsEntryOf (e : Entry) (d : Document) : Prop :=
  ∃ members t, d = .table members ∧ EntryText.IsSaid t members ∧ t.Becomes e

/-- Entries read from a list of tables are one for each table, in their order. -/
theorem forall₂_isEntryOf {conv : Conventions} {ds : List Document}
    (htables : ∀ d ∈ ds, d.isTable = true) {ts : List EntryText} {es : List Entry}
    (hts : List.Forall₂ (fun d t => Settings.entryText? conv d = some t) ds ts)
    (hes : List.Forall₂ EntryText.Becomes ts es) :
    List.Forall₂ (fun d e => IsEntryOf e d) ds es := by
  induction hts generalizing es with
  | nil =>
    cases hes
    exact .nil
  | cons hd _ ih =>
    cases hes with
    | cons he hes =>
      obtain ⟨members, rfl⟩ := Document.isTable_iff.1 (htables _ List.mem_cons_self)
      refine .cons ⟨members, _, rfl, Settings.entryText?_table_eq_some_iff.1 hd, he⟩ (ih ?_ hes)
      exact fun d hd => htables d (List.mem_cons_of_mem _ hd)

section Tables

variable {ds : List Document} (htables : ∀ d ∈ ds, d.isTable = true) {c : Config}

include htables

/-- A list of tables that is a list of entries gives them all. -/
theorem Config.forall₂_isEntryOf_of_ofJson {ts : List EntryText}
    (hts : Settings.entries? .jsonChoice (.list ds) = some ts)
    (hc : Config.ofJson (.list ds) = .ok c) :
    List.Forall₂ (fun d e => IsEntryOf e d) ds c.entries := by
  rw [Config.ofJson, hts] at hc
  obtain ⟨es, hes, rfl⟩ := map_eq_ok_iff.1 hc
  exact forall₂_isEntryOf htables (Settings.entries?_list_eq_some_iff.1 hts)
    (Entry.ofTexts?_eq_ok_iff.1 hes)

/-- A list of tables that is no list of entries can only be read as settings, and has no entries
then. -/
theorem Config.isSettings_of_ofJson (hnone : Settings.entries? .jsonChoice (.list ds) = none)
    (hc : Config.ofJson (.list ds) = .ok c) : isSettings ds = true ∧ c.entries = [] := by
  rw [Config.ofJson, hnone] at hc
  cases hrecord : Settings.record? .jsonChoice (.list ds) with
  | none => simp [hrecord] at hc
  | some s =>
    obtain ⟨hentries, hs⟩ := Settings.entries_eq_nil_of_record? htables hrecord
    obtain ⟨d, hd, -⟩ := Settings.entries?_list_eq_none_iff.1 hnone
    refine ⟨hs (List.ne_nil_of_mem hd), ?_⟩
    simp only [hrecord, Settings.check, bind_eq_ok_iff, pure_eq_ok_iff, hentries] at hc
    obtain ⟨es, hes, rfl⟩ := hc
    simpa using Entry.ofTexts?_eq_ok_iff.1 hes

/-- Settings that are no list of entries are read, and give no entries. -/
theorem Config.exists_ofJson_of_isSettings (hnone : Settings.entries? .jsonChoice (.list ds) = none)
    (hs : isSettings ds = true) : ∃ c, Config.ofJson (.list ds) = .ok c ∧ c.entries = [] := by
  obtain ⟨s, hrecord⟩ := exists_record?_of_isSettings hs
  obtain ⟨hnil, -⟩ := Settings.entries_eq_nil_of_record? htables hrecord
  refine ⟨⟨s.root, s.exclude, s.respectGitignore, s.severity, s.failOn, []⟩, ?_, rfl⟩
  rw [Config.ofJson, hnone]
  simp only [hrecord, Settings.check, bind_eq_ok_iff, pure_eq_ok_iff, hnil]
  exact ⟨[], rfl, rfl⟩

/-- **A list of tables as a configuration.** What a JSON list of tables is read as has one entry for
each table, in their order and as written there, unless the list is read as settings: then it has no
entries. So the rule that a list of tables gives an error or an entry for each table fails for those
lists only that can be taken up, are settings, and hold a table that is no entry. -/
theorem Config.parseJson_tables {text : String} (hread : Json.read text.toList = some (.list ds)) :
    (∀ c, Config.parseJson text = .ok c →
      List.Forall₂ (fun d e => IsEntryOf e d) ds c.entries ∨
        isSettings ds = true ∧ c.entries = []) ∧
    ((∀ c, Config.parseJson text = .ok c → List.Forall₂ (fun d e => IsEntryOf e d) ds c.entries) ↔
      ¬ (Config.TakesUp (.list ds) ∧ isSettings ds = true ∧
        ∃ d ∈ ds, Settings.entryText? .jsonChoice d = none)) := by
  simp only [Config.parseJson_eq_ok_iff hread, ← Settings.entries?_list_eq_none_iff]
  refine ⟨fun c ⟨_, hc⟩ => ?_, fun hrule => ?_, fun hnot c ⟨htakes, hc⟩ => ?_⟩
  · cases hentries : Settings.entries? .jsonChoice (.list ds) with
    | none => exact .inr (Config.isSettings_of_ofJson htables hentries hc)
    | some ts => exact .inl (Config.forall₂_isEntryOf_of_ofJson htables hentries hc)
  · rintro ⟨htakes, hs, hnone⟩
    obtain ⟨c, hc, hnil⟩ := Config.exists_ofJson_of_isSettings htables hnone hs
    -- There is a table, but no entry for it.
    have hds := hrule c ⟨htakes, hc⟩
    rw [hnil, List.forall₂_nil_right_iff] at hds
    subst hds
    cases hs
  · cases hentries : Settings.entries? .jsonChoice (.list ds) with
    | none =>
      obtain ⟨hs, -⟩ := Config.isSettings_of_ofJson htables hentries hc
      exact absurd ⟨htakes, hs, hentries⟩ hnot
    | some ts => exact Config.forall₂_isEntryOf_of_ofJson htables hentries hc

end Tables

/-! ## A lost entry -/

/-- The items of a list. -/
def Document.items? : Document → Option (List Document)
  | .list ds => some ds
  | _ => none

/-- Only a list has items. -/
theorem Document.items?_eq_some_iff {d : Document} {ds : List Document} :
    d.items? = some ds ↔ d = .list ds := by
  cases d <;> simp [Document.items?]

/-- A list with one table, which is no entry but settings that set nothing, is read without an
entry. -/
theorem Config.parseJson_loses_entry : ∃ ds c,
    Json.read "[\x7b\"target\": \"a\"\x7d]".toList = some (.list ds) ∧
      (∀ d ∈ ds, d.isTable = true) ∧ ds.length = 1 ∧
      Config.parseJson "[\x7b\"target\": \"a\"\x7d]" = .ok c ∧ c.entries.length = 0 := by
  have hread : ((Json.read "[\x7b\"target\": \"a\"\x7d]".toList).bind Document.items?).any
      (fun ds => ds.all Document.isTable && ds.length == 1) = true := by decide +kernel
  have hparse : (Config.parseJson "[\x7b\"target\": \"a\"\x7d]").toOption.any
      (fun c => c.entries.length == 0) = true := by decide +kernel
  obtain ⟨ds, hds, hshape⟩ := (Option.any_eq_true ..).1 hread
  obtain ⟨c, hc, hentries⟩ := (Option.any_eq_true ..).1 hparse
  obtain ⟨d, hd, hitems⟩ := Option.bind_eq_some_iff.1 hds
  obtain rfl := Document.items?_eq_some_iff.1 hitems
  rw [Bool.and_eq_true, List.all_eq_true, beq_iff_eq] at hshape
  exact ⟨ds, c, hd, hshape.1, hshape.2, toOption_eq_some_iff.1 hc, by simpa using hentries⟩

/-- The exception at that list. -/
theorem Config.parseJson_tables_target : ∃ ds,
    Json.read "[\x7b\"target\": \"a\"\x7d]".toList = some (.list ds) ∧
      (∀ d ∈ ds, d.isTable = true) ∧
      ¬ ∀ c, Config.parseJson "[\x7b\"target\": \"a\"\x7d]" = .ok c →
        List.Forall₂ (fun d e => IsEntryOf e d) ds c.entries := by
  have hread : ((Json.read "[\x7b\"target\": \"a\"\x7d]".toList).bind Document.items?).any
      (fun ds => ds.all Document.isTable && isSettings ds &&
        decide (Document.depth (.list ds) ≤ Config.maxDepth) &&
        Document.holdsThroughout Config.isSound (.list ds) &&
        ds.any fun d => (Settings.entryText? .jsonChoice d).isNone) = true := by decide +kernel
  obtain ⟨ds, hds, hshape⟩ := (Option.any_eq_true ..).1 hread
  obtain ⟨d, hd, hitems⟩ := Option.bind_eq_some_iff.1 hds
  obtain rfl := Document.items?_eq_some_iff.1 hitems
  simp only [Bool.and_eq_true, List.all_eq_true, List.any_eq_true, decide_eq_true_eq,
    Option.isNone_iff_eq_none] at hshape
  obtain ⟨⟨⟨⟨htables, hsettings⟩, hdepth⟩, hsound⟩, hnone⟩ := hshape
  refine ⟨ds, hd, htables, fun hrule => ?_⟩
  exact (Config.parseJson_tables htables hd).2.1 hrule ⟨⟨hdepth, hsound⟩, hsettings, hnone⟩

end ImportLint

import ImportLint.Proofs.Config.Json
import ImportLint.Proofs.Toml.Tables

/-!
# Three spellings of a configuration

Entries alone make up a configuration in JSON as a bare list and as the one member of a table, and
in TOML as a list of tables. A restriction that stands alone may be written as a list of one. All of
that is read as the same configuration, or is refused for the same reason.
-/

namespace ImportLint

open Document

/-! ## Tables that say nothing but an entry -/

/-- The names of the fields of an entry. -/
def EntryText.fieldNames : List String := ["target", "restrictions", "doc"]

/-- A document that says an entry and nothing else. -/
def EntryText.IsSpelled (t : EntryText) (d : Document) : Prop :=
  ∃ members, d = .table members ∧ t.IsSaid members ∧
    ∀ m ∈ members, ∃ name ∈ EntryText.fieldNames, m.1 = name.toList

/-- A field is what each member of its name is. -/
theorem Document.eq_some_of_field? {members : List (List Char × Document)} {name : String}
    {f : Option Document} (h : field? members name = some f)
    {m : List Char × Document} (hm : m ∈ members) (hname : m.1 = name.toList) : f = some m.2 := by
  have hmem : m ∈ members.filter (·.1 == name.toList) := List.mem_filter.2 ⟨hm, by simp [hname]⟩
  unfold field? at h
  split at h
  · next hnil =>
    rw [hnil] at hmem
    cases hmem
  · next k hk =>
    rw [hk, List.mem_singleton] at hmem
    rw [hmem]
    exact (Option.some.inj h).symm
  · cases h

/-- A list of texts takes up one level of nesting, and is sound. -/
theorem Document.takesUp_ofStrings (ss : List String) :
    (ofStrings ss).depth ≤ 1 ∧ (ofStrings ss).holdsThroughout Config.isSound = true := by
  constructor
  · refine depth_list_le_iff.2 fun d hd => ?_
    obtain ⟨s, -, rfl⟩ := List.mem_map.1 hd
    exact Nat.le_refl 0
  · refine holdsThroughout_list.2 fun d hd => ?_
    obtain ⟨s, -, rfl⟩ := List.mem_map.1 hd
    rfl

/-- What is in a table that says nothing but an entry can be taken up. -/
theorem EntryText.IsSpelled.takesUp {t : EntryText} {d : Document} (h : t.IsSpelled d) :
    d.depth ≤ 2 ∧ d.holdsThroughout Config.isSound = true := by
  obtain ⟨members, rfl, hsaid, hnames⟩ := h
  have hinner : ∀ m ∈ members, m.2.depth ≤ 1 ∧ m.2.holdsThroughout Config.isSound = true := by
    intro m hm
    obtain ⟨name, hname, hm1⟩ := hnames m hm
    have hfield {d : Document} (hd : field? members name = some (some d)) : m.2 = d :=
      (Option.some.inj (eq_some_of_field? hd hm hm1)).symm
    have hmissing (hd : field? members name = some none) : False := by
      cases eq_some_of_field? hd hm hm1
    -- Each member is one of the fields, and their forms are known.
    simp only [EntryText.fieldNames, List.mem_cons, List.not_mem_nil, or_false] at hname
    rcases hname with rfl | rfl | rfl
    · rw [hfield hsaid.target]
      exact ⟨Nat.zero_le 1, rfl⟩
    · rcases hsaid.restrictions with hlist | ⟨r, -, hone⟩
      · rw [hfield hlist]
        exact takesUp_ofStrings t.restrictions
      · rw [hfield hone]
        exact ⟨Nat.zero_le 1, rfl⟩
    · have hdoc := hsaid.doc
      split at hdoc
      · rcases hdoc with hnone | hnull
        · exact (hmissing hnone).elim
        · rw [hfield hnull]
          exact ⟨Nat.zero_le 1, rfl⟩
      · rw [hfield hdoc]
        exact ⟨Nat.zero_le 1, rfl⟩
  exact ⟨depth_table_le_iff.2 fun m hm => (hinner m hm).1,
    holdsThroughout_table.2 fun m hm => (hinner m hm).2⟩

/-! ## What entries are read as -/

/-- The configuration with some entries, checked, and defaults for the rest. -/
def Config.ofEntryTexts (ts : List EntryText) : Except ConfigError Config :=
  (Entry.ofTexts? ts).map Config.ofEntries

section Spelled

variable {ts : List EntryText} {ds : List Document} (h : List.Forall₂ EntryText.IsSpelled ts ds)

include h

/-- A list of documents that spell entries is read as these entries. -/
theorem Settings.entries?_eq_some_of_isSpelled (conv : Conventions) :
    Settings.entries? conv (.list ds) = some ts := by
  rw [Settings.entries?_list_eq_some_iff]
  refine (h.imp ?_).flip
  rintro t d ⟨members, rfl, hsaid, -⟩
  exact Settings.entryText?_table_eq_some_iff.2 hsaid

/-- A record with entries alone has the defaults in its other fields. -/
theorem Settings.exists_record?_entries (conv : Conventions) :
    ∃ s, Settings.record? conv (.table [("import-patterns".toList, .list ds)]) = some s ∧
      s.check = Config.ofEntryTexts ts := by
  have hentries := Settings.entries?_eq_some_of_isSpelled h conv
  have hfields : fields? conv ["analyzer", "severity", "fail_on", "import-patterns"]
      (.table [("import-patterns".toList, .list ds)]) = some [none, none, none, some (.list ds)] :=
    rfl
  refine ⟨.ofEntries ts, ?_, Settings.check_ofEntries ts⟩
  rw [Settings.record?, hfields]
  simp [hentries, Settings.ofEntries]

/-! ## Reading the spellings -/

/-- A list of documents that spell entries takes up three levels of nesting at most, and is sound.
-/
theorem Document.takesUp_list :
    (list ds).depth ≤ 3 ∧ (list ds).holdsThroughout Config.isSound = true := by
  have hitems : ∀ d ∈ ds, d.depth ≤ 2 ∧ d.holdsThroughout Config.isSound = true := by
    induction h with
    | nil => simp
    | cons hd _ ih => exact List.forall_mem_cons.2 ⟨hd.takesUp, ih⟩
  exact ⟨depth_list_le_iff.2 fun d hd => (hitems d hd).1,
    holdsThroughout_list.2 fun d hd => (hitems d hd).2⟩

/-- The bare list of entries. -/
theorem Config.parseJson_list {text : String} (hread : Json.read text.toList = some (.list ds)) :
    Config.parseJson text = Config.ofEntryTexts ts := by
  obtain ⟨hdepth, hsound⟩ := Document.takesUp_list h
  have htakes : Config.TakesUp (.list ds) := ⟨Nat.le_trans hdepth (by decide), hsound⟩
  rw [Config.parseJson_eq_ofJson hread htakes, Config.ofJson,
    Settings.entries?_eq_some_of_isSpelled h]
  rfl

/-- A record of entries in JSON. -/
theorem Config.parseJson_table {text : String}
    (hread : Json.read text.toList = some (.table [("import-patterns".toList, .list ds)])) :
    Config.parseJson text = Config.ofEntryTexts ts := by
  obtain ⟨hdepth, hsound⟩ := Document.takesUp_list h
  have htakes : Config.TakesUp (.table [("import-patterns".toList, .list ds)]) := by
    have hdepth' : (Document.table [("import-patterns".toList, .list ds)]).depth ≤ 4 :=
      depth_table_le_iff.2 (by simpa using hdepth)
    exact ⟨Nat.le_trans hdepth' (by decide), holdsThroughout_table.2 (by simpa using hsound)⟩
  obtain ⟨s, hs, hcheck⟩ := Settings.exists_record?_entries h .jsonChoice
  rw [Config.parseJson_eq_ofJson hread htakes, Config.ofJson, hs, ← hcheck]
  rfl

/-- A list of tables in TOML, left out if there are none. -/
theorem Config.parseToml_tables {text : String} (hread : Toml.read text.toList =
    some (.table (if ds.isEmpty then [] else [("import-patterns".toList, .list ds)]))) :
    Config.parseToml text = Config.ofEntryTexts ts := by
  unfold Config.parseToml
  rw [hread, Option.bind_some]
  cases ds with
  | nil =>
    cases h
    rfl
  | cons d ds =>
    obtain ⟨s, hs, hcheck⟩ := Settings.exists_record?_entries h .toml
    rw [List.isEmpty_cons, if_neg Bool.false_ne_true, hs]
    exact hcheck

end Spelled

/-! ## Writing the spellings -/

/-- The restrictions of an entry as they are spelled: one that stands alone, or a list. -/
inductive SpelledRestrictions where
  | one (r : String)
  | several (rs : List String)

/-- An entry as it is spelled. -/
structure SpelledEntry where
  target : String
  restrictions : SpelledRestrictions
  doc : Option String

/-- The restrictions as a list. -/
def SpelledRestrictions.toList : SpelledRestrictions → List String
  | one r => [r]
  | several rs => rs

/-- The restrictions as a document. -/
def SpelledRestrictions.toDocument : SpelledRestrictions → Document
  | one r => .string r.toList
  | several rs => .ofStrings rs

namespace SpelledEntry

/-- What an entry says, however its restrictions are spelled. -/
def text (e : SpelledEntry) : EntryText := ⟨e.target, e.restrictions.toList, e.doc⟩

/-- The members of the table of an entry. -/
def members (e : SpelledEntry) : List (List Char × Document) :=
  ("target".toList, .string e.target.toList) ::
    ("restrictions".toList, e.restrictions.toDocument) ::
    match e.doc with
    | none => []
    | some doc => [("doc".toList, .string doc.toList)]

/-- The same entry with its restrictions as a list. -/
def listed (e : SpelledEntry) : SpelledEntry :=
  { e with restrictions := .several e.restrictions.toList }

/-- An entry says the same with its restrictions as a list. -/
theorem text_listed (e : SpelledEntry) : e.listed.text = e.text := rfl

/-- The keys of an entry are the first names of its fields, in order. -/
theorem keys_isPrefix (e : SpelledEntry) :
    e.members.map Prod.fst <+: EntryText.fieldNames.map String.toList := by
  unfold members
  cases e.doc with
  | none => exact ⟨["doc".toList], rfl⟩
  | some doc => exact ⟨[], rfl⟩

/-- The members of an entry spell what it says. -/
theorem isSpelled_members (e : SpelledEntry) : e.text.IsSpelled (.table e.members) := by
  obtain ⟨target, restrictions, doc⟩ := e
  refine ⟨_, rfl, ⟨?_, ?_, ?_⟩, ?_⟩
  · cases doc <;> rfl
  · cases restrictions with
    | one r => exact .inr ⟨r, rfl, by cases doc <;> rfl⟩
    | several rs => exact .inl (by cases doc <;> rfl)
  · cases doc with
    | none => exact .inl rfl
    | some doc => rfl
  · cases doc <;> simp [members, EntryText.fieldNames]

/-- The members of an entry are texts, or lists of texts. -/
theorem isTextual_members (e : SpelledEntry) :
    ∀ m ∈ e.members, Toml.IsTextual m.2 ∧ m.2.depth ≤ 1 := by
  have hstring (s : List Char) : Toml.IsTextual (.string s) ∧ (Document.string s).depth ≤ 1 :=
    ⟨.string s, Nat.zero_le 1⟩
  have hrestrictions : Toml.IsTextual e.restrictions.toDocument ∧
      e.restrictions.toDocument.depth ≤ 1 := by
    cases e.restrictions with
    | one r => exact hstring _
    | several rs =>
      refine ⟨.list _ fun d hd => ?_, (takesUp_ofStrings rs).1⟩
      obtain ⟨r, -, rfl⟩ := List.mem_map.1 hd
      exact .string _
  unfold members
  refine List.forall_mem_cons.2 ⟨hstring _, List.forall_mem_cons.2 ⟨hrestrictions, ?_⟩⟩
  cases e.doc with
  | none => simp
  | some doc => exact List.forall_mem_singleton.2 (hstring _)

/-- No key of an entry comes twice. -/
theorem nodup_members (e : SpelledEntry) : (e.members.map Prod.fst).Nodup := by
  have hnodup : (EntryText.fieldNames.map String.toList).Nodup := by decide +kernel
  exact hnodup.sublist e.keys_isPrefix.sublist

/-- The members of an entry can be written as lines. -/
theorem areWritten_members (e : SpelledEntry) : Toml.AreWritten e.members := by
  intro m hm
  obtain ⟨htextual, hdepth⟩ := e.isTextual_members m hm
  have hbare : ∀ k ∈ EntryText.fieldNames.map String.toList, Toml.isBareKey k = true := by
    decide +kernel
  have hkey := hbare m.1 (e.keys_isPrefix.subset (List.mem_map_of_mem hm))
  exact ⟨hkey, htextual, Nat.le_trans hdepth (by decide)⟩

end SpelledEntry

/-- The documents of entries. -/
def documents (es : List SpelledEntry) : List Document := es.map fun e => .table e.members

/-- The documents of entries spell what the entries say, each in its place. -/
theorem forall₂_isSpelled_documents (es : List SpelledEntry) :
    List.Forall₂ EntryText.IsSpelled (es.map SpelledEntry.text) (documents es) := by
  rw [documents, List.forall₂_map_left_iff, List.forall₂_map_right_iff, List.forall₂_same]
  exact fun e _ => e.isSpelled_members

/-- Entries as a bare list in JSON. -/
def jsonList (l : Json.Layout) (es : List SpelledEntry) : String :=
  String.ofList (Json.write l (.list (documents es)))

/-- Entries as the one member of a table in JSON. -/
def jsonTable (l : Json.Layout) (es : List SpelledEntry) : String :=
  String.ofList (Json.write l (.table [("import-patterns".toList, .list (documents es))]))

/-- Entries as a list of tables in TOML. -/
def tomlTables (es : List SpelledEntry) : String :=
  String.ofList ((es.map SpelledEntry.members).flatMap (Toml.writeItem "import-patterns".toList))

section Texts

variable (es : List SpelledEntry) (l : Json.Layout)

/-- The documents of entries can be written. -/
theorem holdsThroughout_documents :
    (Document.list (documents es)).holdsThroughout Json.isWritten = true := by
  refine holdsThroughout_list.2 fun d hd => ?_
  obtain ⟨e, -, rfl⟩ := List.mem_map.1 hd
  exact holdsThroughout_table.2 fun m hm =>
    (e.isTextual_members m hm).1.holdsThroughout fun _ => rfl

/-- The bare list is read back as the documents of the entries. -/
theorem read_jsonList : Json.read (jsonList l es).toList = some (.list (documents es)) := by
  rw [jsonList, String.toList_ofList]
  exact Json.read_write (holdsThroughout_documents es) l

/-- The table is read back with the documents of the entries as its one member. -/
theorem read_jsonTable : Json.read (jsonTable l es).toList =
    some (.table [("import-patterns".toList, .list (documents es))]) := by
  rw [jsonTable, String.toList_ofList]
  exact Json.read_write (holdsThroughout_table.2 (by simpa using holdsThroughout_documents es)) l

/-- The tables are read back as a list under their key, which is missing if there are none. -/
theorem read_tomlTables : Toml.read (tomlTables es).toList = some (.table
    (if (documents es).isEmpty then [] else
      [("import-patterns".toList, .list (documents es))])) := by
  have hkey : Toml.isBareKey "import-patterns".toList = true := by decide +kernel
  have hwritten : ∀ ms ∈ es.map SpelledEntry.members, Toml.AreWritten ms :=
    List.forall_mem_map.2 fun e _ => e.areWritten_members
  have hnodup : ∀ ms ∈ es.map SpelledEntry.members, (ms.map Prod.fst).Nodup :=
    List.forall_mem_map.2 fun e _ => e.nodup_members
  rw [tomlTables, String.toList_ofList, Toml.read_writeItems hkey hwritten hnodup, List.map_map]
  cases es <;> rfl

end Texts

/-- **Three spellings of a configuration.** The bare list in JSON, the table in JSON and the tables
in TOML of the same entries are read as one configuration or refused for one reason, whatever their
restrictions are spelled like: that of the entries as such. So is every text that says the same
entries. -/
theorem Config.spellings_agree (es : List SpelledEntry) (l : Json.Layout) :
    Config.parseJson (jsonTable l es) = Config.parseJson (jsonList l es) ∧
    Config.parseToml (tomlTables es) = Config.parseJson (jsonList l es) ∧
    (∀ es', List.Forall₂ (fun e e' => e' = e ∨ e' = e.listed) es es' →
      Config.parseJson (jsonList l es') = Config.parseJson (jsonList l es) ∧
      Config.parseJson (jsonTable l es') = Config.parseJson (jsonList l es) ∧
      Config.parseToml (tomlTables es') = Config.parseJson (jsonList l es)) ∧
    (∀ ds text, List.Forall₂ EntryText.IsSpelled (es.map SpelledEntry.text) ds →
      (Json.read text.toList = some (.list ds) ∨
          Json.read text.toList = some (.table [("import-patterns".toList, .list ds)]) →
        Config.parseJson text = Config.parseJson (jsonList l es)) ∧
      (Toml.read text.toList =
          some (.table (if ds.isEmpty then [] else [("import-patterns".toList, .list ds)])) →
        Config.parseToml text = Config.parseJson (jsonList l es))) ∧
    Config.parseJson (jsonList l es) = Config.ofEntryTexts (es.map SpelledEntry.text) := by
  have hlist (es : List SpelledEntry) :
      Config.parseJson (jsonList l es) = Config.ofEntryTexts (es.map SpelledEntry.text) :=
    Config.parseJson_list (forall₂_isSpelled_documents es) (read_jsonList es l)
  have htable (es : List SpelledEntry) :
      Config.parseJson (jsonTable l es) = Config.ofEntryTexts (es.map SpelledEntry.text) :=
    Config.parseJson_table (forall₂_isSpelled_documents es) (read_jsonTable es l)
  have htoml (es : List SpelledEntry) :
      Config.parseToml (tomlTables es) = Config.ofEntryTexts (es.map SpelledEntry.text) :=
    Config.parseToml_tables (forall₂_isSpelled_documents es) (read_tomlTables es)
  -- What is read in each spelling is what the texts of the entries make.
  refine ⟨by rw [htable, hlist], by rw [htoml, hlist], fun es' hes' => ?_,
    fun ds text hds => ⟨?_, ?_⟩, hlist es⟩
  · -- A restriction on its own says what the list of it says.
    have htexts : es'.map SpelledEntry.text = es.map SpelledEntry.text := by
      induction hes' with
      | nil => rfl
      | cons he _ ih =>
        rw [List.map_cons, List.map_cons, ih]
        rcases he with rfl | rfl
        · rfl
        · rw [SpelledEntry.text_listed]
    rw [hlist, htable, htoml, hlist, htexts]
    exact ⟨rfl, rfl, rfl⟩
  · rw [hlist]
    rintro (hread | hread)
    · exact Config.parseJson_list hds hread
    · exact Config.parseJson_table hds hread
  · rw [hlist]
    exact Config.parseToml_tables hds

/-- Two entries, of which the first is in order and the second has an invalid target and no
restrictions. -/
def faultyEntries : List SpelledEntry :=
  [⟨"a", .one "b", none⟩, ⟨"[", .several [], some "D.md"⟩]

/-- The two entries as tables with their fields in another order. -/
def faultyDocuments : List Document :=
  [.table [("restrictions".toList, .list [.string ['b']]), ("target".toList, .string ['a'])],
    .table [("doc".toList, .string "D.md".toList), ("target".toList, .string ['[']),
      ("restrictions".toList, .list [])]]

/-- The faults of entries are found in the same place, also where a text has blanks or lists tables
in place. -/
theorem Config.spellings_agree_faulty :
    jsonList .compact faultyEntries = "[\x7b\"target\":\"a\",\"restrictions\":\"b\"\x7d," ++
      "\x7b\"target\":\"[\",\"restrictions\":[],\"doc\":\"D.md\"\x7d]" ∧
    tomlTables faultyEntries = "[[import-patterns]]\ntarget = \"a\"\nrestrictions = \"b\"\n" ++
      "[[import-patterns]]\ntarget = \"[\"\nrestrictions = []\ndoc = \"D.md\"\n" ∧
    Config.parseToml (tomlTables faultyEntries) =
      .error (.pattern "import-patterns[1].target" (.invalid "[" ⟨0, .openBracket⟩)) ∧
    Config.parseJson (jsonTable .compact (faultyEntries.map .listed)) =
      Config.parseToml (tomlTables faultyEntries) ∧
    Config.parseJson ("[\x7b\"restrictions\": [\"b\"], \"target\": \"a\"\x7d, " ++
      "\x7b\"doc\": \"D.md\", \"target\": \"[\", \"restrictions\": []\x7d]") =
        Config.parseToml (tomlTables faultyEntries) ∧
    Config.parseToml ("import-patterns = [\x7brestrictions = ['b'], target = 'a'\x7d, " ++
      "\x7bdoc = 'D.md', target = '[', restrictions = []\x7d]") =
        Config.parseToml (tomlTables faultyEntries) := by
  have herr : Config.ofEntryTexts (faultyEntries.map SpelledEntry.text) =
    .error (.pattern "import-patterns[1].target" (.invalid "[" ⟨0, .openBracket⟩)) := by
    decide +kernel
  obtain ⟨-, htoml, hlisted, hspelled, hlist⟩ := Config.spellings_agree faultyEntries .compact
  have hdocuments :
      List.Forall₂ EntryText.IsSpelled (faultyEntries.map SpelledEntry.text) faultyDocuments :=
    .cons ⟨_, rfl, ⟨rfl, .inl rfl, .inl rfl⟩, by decide +kernel⟩
      (.cons ⟨_, rfl, ⟨rfl, .inl rfl, rfl⟩, by decide +kernel⟩ .nil)
  refine ⟨by decide +kernel, by decide +kernel, by rw [htoml, hlist, herr], ?_, ?_, ?_⟩ <;>
    rw [htoml]
  · exact (hlisted _ (List.forall₂_map_right_iff.2 (List.forall₂_same.2 fun e _ => .inr rfl))).2.1
  · exact (hspelled faultyDocuments _ hdocuments).1 (.inl (by decide +kernel))
  · exact (hspelled faultyDocuments _ hdocuments).2 (by decide +kernel)

end ImportLint

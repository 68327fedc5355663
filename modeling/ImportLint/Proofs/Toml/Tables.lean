import ImportLint.Proofs.Toml.Lines

/-!
# Lists of tables in TOML

A text with nothing but items of one list of tables builds a table with that list alone. Without any
items it builds the empty table.
-/

namespace ImportLint.Toml

/-! ## Assignments -/

namespace Members

variable {key : Key} {ms : Members}

/-- A new key goes to the end. -/
theorem rework_of_notMem (h : key ∉ ms.map Prod.fst) (f : Option Node → Option Node) :
    ms.rework key f = (f none).map fun node => ms ++ [(key, node)] := by
  induction ms with
  | nil => rfl
  | cons m ms ih =>
    rw [List.map_cons, List.mem_cons, not_or] at h
    have hne : ¬ m.1 = key := fun heq => h.1 heq.symm
    rw [rework, if_neg hne, ih h.2, Option.map_map]
    rfl

/-- A new key is put behind the others. -/
theorem put_of_notMem (h : key ∉ ms.map Prod.fst) (d : Document) :
    ms.put key d = some (ms ++ [(key, .value d)]) := by
  rw [put, rework_of_notMem h]
  rfl

/-- Members with finished values. -/
def ofDocuments (ms : List (Key × Document)) : Members := ms.map fun m => (m.1, .value m.2)

/-- Different keys are given their values one after the other. -/
theorem assignAll_of_nodup {done ms : List (Key × Document)}
    (h : ((done ++ ms).map Prod.fst).Nodup) :
    assignAll (ms.map fun m => (⟨[], m.1⟩, m.2)) (ofDocuments done) =
      some (ofDocuments (done ++ ms)) := by
  -- What has been assigned grows by one member at each step.
  induction ms generalizing done with
  | nil => simp [assignAll]
  | cons m ms ih =>
    have hnew : m.1 ∉ (ofDocuments done).map Prod.fst := by
      rw [List.map_append, List.map_cons, List.nodup_append] at h
      intro hmem
      rw [ofDocuments, List.map_map] at hmem
      exact h.2.2 m.1 hmem m.1 List.mem_cons_self rfl
    have hrest : assignAll (ms.map fun m => (⟨[], m.1⟩, m.2)) (ofDocuments (done ++ [m])) =
        some (ofDocuments (done ++ [m] ++ ms)) := ih (by simpa using h)
    rw [List.append_assoc, List.singleton_append] at hrest
    rw [← hrest, assignAll, List.map_cons, List.foldlM_cons]
    show (put m.1 m.2 (ofDocuments done)).bind _ = _
    rw [put_of_notMem hnew]
    simp [assignAll, ofDocuments]

end Members

/-- Members made of documents are these documents. -/
theorem membersToDocuments_ofDocuments (ms : List (Key × Document)) :
    membersToDocuments (Members.ofDocuments ms) = ms := by
  induction ms with
  | nil => rfl
  | cons m ms ih =>
    rw [Members.ofDocuments, List.map_cons, membersToDocuments, ← Members.ofDocuments, ih]
    rfl

/-! ## Items -/

/-- The section of an item. -/
def itemSection (k : Key) (ms : List (Key × Document)) : Section :=
  ⟨Members.openItem ⟨[], k⟩, ms.map fun m => (⟨[], m.1⟩, m.2)⟩

/-- Assignments before the first header belong to no section. -/
theorem sections_append_assign (ms : List (Key × Document)) (ss : List Statement) :
    sections ((ms.map fun m => .assign ⟨[], m.1⟩ m.2) ++ ss) =
      ((ms.map fun m => (⟨[], m.1⟩, m.2)) ++ (sections ss).1, (sections ss).2) := by
  induction ms with
  | nil => rfl
  | cons m ms ih => rw [List.map_cons, List.cons_append, sections, ih]; rfl

/-- The statements of tables are one section for each. -/
theorem sections_itemStatements (k : Key) (tables : List (List (Key × Document))) :
    sections (tables.flatMap (itemStatements k)) = ([], tables.map (itemSection k)) := by
  induction tables with
  | nil => rfl
  | cons ms tables ih =>
    rw [List.flatMap_cons, itemStatements, List.cons_append, sections, sections_append_assign, ih]
    simp [itemSection]

/-- The members of a table with one list of tables, or with nothing if that is empty. -/
def oneList (k : Key) (tables : List (List (Key × Document))) : Members :=
  if tables.isEmpty then [] else [(k, .tables (tables.map Members.ofDocuments))]

/-- A section adds its table to the list under its key. -/
theorem openItem_oneList {k : Key} {done : List (List (Key × Document))}
    {ms : List (Key × Document)} (h : (ms.map Prod.fst).Nodup) :
    (itemSection k ms).place (Members.assignAll (itemSection k ms).assignments) (oneList k done) =
      some (oneList k (done ++ [ms])) := by
  have hfill : Members.assignAll (itemSection k ms).assignments [] =
      some (Members.ofDocuments ms) :=
    @Members.assignAll_of_nodup [] ms (by simpa using h)
  show Members.openItem ⟨[], k⟩ _ _ = _
  rw [Members.openItem, Members.underHeader]
  cases done with
  | nil => simp [oneList, Members.rework, hfill]
  | cons first rest => simp [oneList, Members.rework, hfill]

/-- Items are appended one after the other. -/
theorem foldlM_itemSections {k : Key} {done tables : List (List (Key × Document))}
    (h : ∀ ms ∈ tables, (ms.map Prod.fst).Nodup) :
    (tables.map (itemSection k)).foldlM
      (fun ms (s : Section) => s.place (Members.assignAll s.assignments) ms)
      (oneList k done) = some (oneList k (done ++ tables)) := by
  induction tables generalizing done with
  | nil => simp
  | cons ms tables ih =>
    have hrest := @ih (done ++ [ms]) fun x hx => h x (List.mem_cons_of_mem ms hx)
    rw [List.append_assoc, List.singleton_append] at hrest
    rw [List.map_cons, List.foldlM_cons, openItem_oneList (h ms List.mem_cons_self)]
    exact hrest

/-- Items made of documents are these documents. -/
theorem itemsToDocuments_ofDocuments (tables : List (List (Key × Document))) :
    itemsToDocuments (tables.map Members.ofDocuments) = tables.map .table := by
  induction tables with
  | nil => rfl
  | cons ms tables ih =>
    rw [List.map_cons, itemsToDocuments, membersToDocuments_ofDocuments, ih, List.map_cons]

/-- A list under one key is a document with it, or an empty one if there are no tables. -/
theorem membersToDocuments_oneList (k : Key) (tables : List (List (Key × Document))) :
    membersToDocuments (oneList k tables) =
      if tables.isEmpty then [] else [(k, .list (tables.map .table))] := by
  unfold oneList
  split
  · rfl
  · rw [membersToDocuments, Node.toDocument, itemsToDocuments_ofDocuments]
    rfl

/-- **A text of tables is read as a table with the list of them**, or as the empty table if there
are none. -/
theorem read_writeItems {k : Key} (hk : isBareKey k = true) {tables : List (List (Key × Document))}
    (hwritten : ∀ ms ∈ tables, AreWritten ms) (hnodup : ∀ ms ∈ tables, (ms.map Prod.fst).Nodup) :
    read (tables.flatMap (writeItem k)) =
      some (.table (if tables.isEmpty then [] else [(k, .list (tables.map .table))])) := by
  have hfold : (tables.map (itemSection k)).foldlM
      (fun ms (s : Section) => s.place (Members.assignAll s.assignments) ms) [] =
        some (oneList k tables) :=
    @foldlM_itemSections k [] tables hnodup
  have hnone : Members.assignAll [] [] = some [] := rfl
  rw [read, statements_writeItems hk hwritten, Option.bind_some, build,
    ← membersToDocuments_oneList]
  simp only [sections_itemStatements, hnone, Option.bind_some, hfold, Option.map_some]

end ImportLint.Toml

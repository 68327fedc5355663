import ImportLint.Document.Basic

/-!
# Documents and what is in them

What holds of plain values, and of lists and tables if it holds of what is in them, holds of all
documents.
-/

namespace ImportLint.Document

/-- Whether a document has nothing in it. -/
def isPlain : Document → Bool
  | list _ | table _ => false
  | _ => true

/-- What holds of a document if it holds of what is in it holds of all. -/
theorem rec_inner {P : Document → Prop} (plain : ∀ d, d.isPlain = true → P d)
    (list : ∀ ds, (∀ d ∈ ds, P d) → P (Document.list ds))
    (table : ∀ ms, (∀ m ∈ ms, P m.2) → P (Document.table ms)) : ∀ d, P d
  | .list ds => list ds fun d _ => rec_inner plain list table d
  | .table ms => table ms fun m _ => rec_inner plain list table m.2
  | .null => plain _ rfl
  | .bool _ => plain _ rfl
  | .number _ => plain _ rfl
  | .string _ => plain _ rfl
  | .halfString _ => plain _ rfl
  | .moment => plain _ rfl
termination_by d => sizeOf d
decreasing_by
  · have hd : sizeOf d < sizeOf ds := List.sizeOf_lt_of_mem ‹_›
    simp only [Document.list.sizeOf_spec]
    omega
  · have hm : sizeOf m < sizeOf ms := List.sizeOf_lt_of_mem ‹_›
    cases m
    simp only [Prod.mk.sizeOf_spec, Document.table.sizeOf_spec] at *
    omega

/-! ## Equality -/

mutual

/-- Whether two documents are the same. -/
def same : Document → Document → Bool
  | null, null => true
  | bool b, bool b' => b == b'
  | number s, number s' => s == s'
  | string s, string s' => s == s'
  | halfString s, halfString s' => s == s'
  | moment, moment => true
  | list ds, list ds' => sameItems ds ds'
  | table ms, table ms' => sameMembers ms ms'
  | _, _ => false

/-- Whether two lists of documents are the same. -/
def sameItems : List Document → List Document → Bool
  | [], [] => true
  | d :: ds, d' :: ds' => same d d' && sameItems ds ds'
  | _, _ => false

/-- Whether two lists of members of tables are the same. -/
def sameMembers : List (List Char × Document) → List (List Char × Document) → Bool
  | [], [] => true
  | (k, d) :: ms, (k', d') :: ms' => k == k' && same d d' && sameMembers ms ms'
  | _, _ => false

end

/-- Lists of documents are the same exactly if the documents in them are. -/
theorem sameItems_iff {ds ds' : List Document} (h : ∀ d ∈ ds, ∀ d', same d d' = true ↔ d = d') :
    sameItems ds ds' = true ↔ ds = ds' := by
  induction ds generalizing ds' with
  | nil => cases ds' <;> simp [sameItems]
  | cons d ds ih =>
    obtain ⟨hd, hds⟩ := List.forall_mem_cons.1 h
    cases ds' <;> simp [sameItems, hd, ih hds]

/-- Lists of members are the same exactly if their keys and the documents in them are. -/
theorem sameMembers_iff {ms ms' : List (List Char × Document)}
    (h : ∀ m ∈ ms, ∀ d', same m.2 d' = true ↔ m.2 = d') : sameMembers ms ms' = true ↔ ms = ms' := by
  induction ms generalizing ms' with
  | nil => cases ms' <;> simp [sameMembers]
  | cons m ms ih =>
    obtain ⟨hm, hms⟩ := List.forall_mem_cons.1 h
    cases ms' <;> simp [sameMembers, hm, ih hms, Prod.ext_iff]

/-- Only a document itself is the same as it. -/
theorem same_iff (d : Document) : ∀ d', same d d' = true ↔ d = d' := by
  induction d using rec_inner with
  | plain d hd => intro d'; cases d <;> cases d' <;> simp_all [same, isPlain]
  | list ds ih => intro d'; cases d' <;> simp [same, sameItems_iff ih]
  | table ms ih => intro d'; cases d' <;> simp [same, sameMembers_iff ih]

/-- Whether two documents are the same can be decided. -/
instance : DecidableEq Document := fun d d' => decidable_of_iff (same d d' = true) (same_iff d d')
/-! ## Properties of plain values -/

/-- A property holds throughout items if it does throughout each. -/
theorem allItems_iff {p : Document → Bool} {ds : List Document} :
    allItems p ds = true ↔ ∀ d ∈ ds, d.holdsThroughout p = true := by
  induction ds with
  | nil => simp [allItems]
  | cons d ds ih => simp [allItems, ih]

/-- A property holds throughout members if it does throughout each of their values. -/
theorem allMembers_iff {p : Document → Bool} {ms : List (List Char × Document)} :
    allMembers p ms = true ↔ ∀ m ∈ ms, m.2.holdsThroughout p = true := by
  induction ms with
  | nil => simp [allMembers]
  | cons m ms ih => simp [allMembers, ih]

/-- A property holds throughout a list if it does throughout its items. -/
theorem holdsThroughout_list {p : Document → Bool} {ds : List Document} :
    (list ds).holdsThroughout p = true ↔ ∀ d ∈ ds, d.holdsThroughout p = true := by
  rw [holdsThroughout, allItems_iff]

/-- A property holds throughout a table if it does throughout the values of its members. -/
theorem holdsThroughout_table {p : Document → Bool} {ms : List (List Char × Document)} :
    (table ms).holdsThroughout p = true ↔ ∀ m ∈ ms, m.2.holdsThroughout p = true := by
  rw [holdsThroughout, allMembers_iff]

/-! ## Depth -/

/-- Items are as deep as the deepest of them. -/
theorem depthOfItems_le_iff {ds : List Document} {n : Nat} :
    depthOfItems ds ≤ n ↔ ∀ d ∈ ds, d.depth ≤ n := by
  induction ds with
  | nil => simp [depthOfItems]
  | cons d ds ih => rw [depthOfItems, Nat.max_le, ih, List.forall_mem_cons]

/-- Members are as deep as the deepest of their values. -/
theorem depthOfMembers_le_iff {ms : List (List Char × Document)} {n : Nat} :
    depthOfMembers ms ≤ n ↔ ∀ m ∈ ms, m.2.depth ≤ n := by
  induction ms with
  | nil => simp [depthOfMembers]
  | cons m ms ih => rw [depthOfMembers, Nat.max_le, ih, List.forall_mem_cons]

/-- A list is deeper by one than its items. -/
theorem depth_list_le_iff {ds : List Document} {n : Nat} :
    (list ds).depth ≤ n + 1 ↔ ∀ d ∈ ds, d.depth ≤ n := by
  rw [depth, ← depthOfItems_le_iff]
  omega

/-- A table is deeper by one than the values of its members. -/
theorem depth_table_le_iff {ms : List (List Char × Document)} {n : Nat} :
    (table ms).depth ≤ n + 1 ↔ ∀ m ∈ ms, m.2.depth ≤ n := by
  rw [depth, ← depthOfMembers_le_iff]
  omega

end ImportLint.Document

import ImportLint.Analysis.Discovery
import ImportLint.Proofs.FileTree.Places
import Mathlib.Data.List.Nodup

/-!
# What a walk comes upon

The walk answers with the places of all that is no directory and that it reaches without passing
over anything on the way. For each of them it does so once. The rules that it goes by at a place are
those of the directories on the way there, from the nearest on.
-/

namespace ImportLint

/-! ## Reaching a place -/

namespace Criteria

/-- The rules that count for the members of the directory at a place, as seen from names on. -/
def rulesBelow (c : Criteria) (rules : List DirectoryRules) (names : List FileName) :
    List FileName → List DirectoryRules
  | [] => c.rulesAt names :: rules
  | n :: ns => c.rulesBelow (c.rulesAt names :: rules) (names ++ [n]) ns

/-- Nothing on the way to a place is passed over, as seen from names on. Whatever has something
below it on the way is a directory. -/
def Passes (c : Criteria) (rules : List DirectoryRules) (names place : List FileName) : Prop :=
  ∀ before n after, place = before ++ n :: after →
    c.skips (c.rulesBelow rules names before) (names ++ before ++ [n]) (!after.isEmpty) = false

variable {c : Criteria} {rules : List DirectoryRules} {names : List FileName}

/-- Where a walk starts nothing is passed over. -/
theorem passes_nil : c.Passes rules names [] := by
  intro before n after h
  have hlen := congrArg List.length h
  simp at hlen

/-- Names pass if the first is not skipped and the others pass below it. -/
theorem passes_cons_iff {n : FileName} {ns : List FileName} : c.Passes rules names (n :: ns) ↔
    c.skips (c.rulesAt names :: rules) (names ++ [n]) (!ns.isEmpty) = false ∧
      c.Passes (c.rulesAt names :: rules) (names ++ [n]) ns := by
  constructor
  · intro h
    refine ⟨by simpa [rulesBelow] using h [] n ns rfl, ?_⟩
    rintro before k after rfl
    simpa [rulesBelow] using h (n :: before) k after rfl
  · rintro ⟨hskips, hrest⟩ before k after h
    cases before with
    | nil =>
      obtain ⟨rfl, rfl⟩ := List.cons.inj h
      simpa [rulesBelow] using hskips
    | cons b before =>
      obtain ⟨rfl, rfl⟩ := List.cons.inj h
      simpa [rulesBelow] using hrest before k after rfl

/-- What is passed over on the way to a place depends on what is passed over at all, and on the
rules of the directories on the way. -/
theorem passes_congr {c' : Criteria} (hskips : c.skips = c'.skips) {place : List FileName}
    (hat : ∀ before n after, place = before ++ n :: after →
      c.rulesAt (names ++ before) = c'.rulesAt (names ++ before)) :
    c.Passes rules names place ↔ c'.Passes rules names place := by
  induction place generalizing rules names with
  | nil => exact iff_of_true passes_nil passes_nil
  | cons n ns ih =>
    have hnames : c.rulesAt names = c'.rulesAt names := by simpa using hat [] n ns rfl
    have hrest (before : List FileName) (k : FileName) (after : List FileName)
      (h : ns = before ++ k :: after) :
        c.rulesAt (names ++ [n] ++ before) = c'.rulesAt (names ++ [n] ++ before) := by
      simpa using hat (n :: before) k after (by rw [h, List.cons_append])
    rw [passes_cons_iff, passes_cons_iff, ih hrest, hskips, hnames]

end Criteria

namespace FileTree

/-- A property of trees holds of all of them if each directory has it when its members do. -/
theorem rec_members {P : FileTree → Prop} (file : ∀ content, P (FileTree.file content))
    (link : ∀ target, P (FileTree.link target))
    (directory : ∀ ms, (∀ m ∈ ms, P m.2) → P (FileTree.directory ms)) : ∀ t, P t
  | .file content => file content
  | .link target => link target
  | .directory ms => directory ms fun m _ => rec_members file link directory m.2
termination_by t => sizeOf t
decreasing_by
  have hm : sizeOf m < sizeOf ms := List.sizeOf_lt_of_mem ‹_›
  cases m
  simp only [Prod.mk.sizeOf_spec, FileTree.directory.sizeOf_spec] at *
  omega

variable {c : Criteria} {rules : List DirectoryRules} {names : List FileName}

/-- A walk of members lists what the walk of one of them does, unless that is skipped. -/
theorem mem_walkMembers_iff {ms : List (FileName × FileTree)} {place : List FileName} :
    place ∈ walkMembers c rules names ms ↔
      ∃ m ∈ ms, c.skips rules (names ++ [m.1]) m.2.isDirectory = false ∧
        place ∈ m.2.walk c rules (names ++ [m.1]) := by
  induction ms with
  | nil => simp [walkMembers]
  | cons m ms ih =>
    rw [walkMembers, List.mem_append, ih, List.exists_mem_cons_iff]
    refine or_congr_left ?_
    cases c.skips rules (names ++ [m.1]) m.2.isDirectory <;> simp

/-- The walk of a directory is that of its members, by its own rules too. -/
theorem walk_directory (ms : List (FileName × FileTree)) : (directory ms).walk c rules names =
    walkMembers c (c.rulesAt names :: rules) names ms := by
  rw [walk]

/-- The walk of anything else lists it alone. -/
theorem walk_of_not_directory {t : FileTree} (h : t.isDirectory = false) :
    t.walk c rules names = [names] := by
  cases t with
  | directory ms => cases h
  | file content => simp only [walk]
  | link target => simp only [walk]

/-- What has something at a place below it is a directory exactly if the place has names in it. -/
theorem isDirectory_of_at? {t u : FileTree} {place : List FileName} (h : t.at? place = some u)
    (hu : u.isDirectory = false) : t.isDirectory = !place.isEmpty := by
  cases place with
  | nil =>
    obtain rfl : t = u := by simpa using h
    exact hu
  | cons n ns =>
    obtain ⟨ms, -, rfl, -, -⟩ := at?_cons_eq_some_iff.1 h
    rfl

/-- In a directory without directories there are only its members. -/
theorem eq_nil_or_mem_of_at? {ms : List (FileName × FileTree)}
    (hms : ∀ m ∈ ms, m.2.isDirectory = false) {u : FileTree} {place : List FileName}
    (h : (directory ms).at? place = some u) : place = [] ∨ ∃ n, place = [n] ∧ (n, u) ∈ ms := by
  cases place with
  | nil => exact .inl rfl
  | cons n ns =>
    obtain ⟨ks, v, hks, hfind, hv⟩ := at?_cons_eq_some_iff.1 h
    obtain rfl := directory.inj hks
    have hmem : (n, v) ∈ ms := mem_of_find? hfind
    cases ns with
    | nil =>
      obtain rfl : v = u := by simpa using hv
      exact .inr ⟨n, rfl, hmem⟩
    | cons k ns =>
      obtain ⟨ls, -, rfl, -⟩ := at?_cons_eq_some_iff.1 hv
      cases hms _ hmem

/-- **The walk** of a proper tree comes upon what is no directory and is reached. -/
theorem mem_walk_iff {t : FileTree} (ht : t.isProper = true) {place : List FileName} :
    place ∈ t.walk c rules names ↔ ∃ rest u, place = names ++ rest ∧ t.at? rest = some u ∧
      u.isDirectory = false ∧ c.Passes rules names rest := by
  -- Members are walked with one name and the rules of one directory more.
  induction t using rec_members generalizing rules names with
  | file content =>
    rw [walk_of_not_directory rfl, List.mem_singleton]
    constructor
    · rintro rfl
      exact ⟨[], _, by simp, rfl, rfl, Criteria.passes_nil⟩
    · rintro ⟨rest, u, rfl, hat, -, -⟩
      cases rest with
      | nil => simp
      | cons n ns => cases hat
  | link target =>
    rw [walk_of_not_directory rfl, List.mem_singleton]
    constructor
    · rintro rfl
      exact ⟨[], _, by simp, rfl, rfl, Criteria.passes_nil⟩
    · rintro ⟨rest, u, rfl, hat, -, -⟩
      cases rest with
      | nil => simp
      | cons n ns => cases hat
  | directory ms ih =>
    obtain ⟨hnodup, hmembers⟩ := isProper_directory_iff.1 ht
    rw [walk_directory, mem_walkMembers_iff]
    constructor
    · rintro ⟨⟨n, v⟩, hm, hskips, hplace⟩
      obtain ⟨rest, u, rfl, hat, hu, hpasses⟩ := (ih _ hm (hmembers _ hm).2).1 hplace
      rw [isDirectory_of_at? hat hu] at hskips
      refine ⟨n :: rest, u, by simp, ?_, hu, Criteria.passes_cons_iff.2 ⟨hskips, hpasses⟩⟩
      exact at?_cons_eq_some_iff.2 ⟨ms, v, rfl, (find?_eq_some_iff hnodup).2 hm, hat⟩
    · rintro ⟨rest, u, rfl, hat, hu, hpasses⟩
      cases rest with
      | nil =>
        -- The place of the directory itself holds no file.
        obtain rfl : directory ms = u := by simpa using hat
        cases hu
      | cons n ns =>
        obtain ⟨ms', v, hms, hfind, hv⟩ := at?_cons_eq_some_iff.1 hat
        obtain rfl := directory.inj hms
        have hm : (n, v) ∈ ms := mem_of_find? hfind
        obtain ⟨hskips, hrest⟩ := Criteria.passes_cons_iff.1 hpasses
        refine ⟨(n, v), hm, ?_, (ih _ hm (hmembers _ hm).2).2 ⟨ns, u, by simp, hv, hu, hrest⟩⟩
        rwa [isDirectory_of_at? hv hu]

/-- The walk of a proper tree comes upon nothing twice. -/
theorem nodup_walk {t : FileTree} (ht : t.isProper = true) : (t.walk c rules names).Nodup := by
  induction t using rec_members generalizing rules names with
  | file content =>
    rw [walk_of_not_directory rfl]
    exact List.nodup_singleton _
  | link target =>
    rw [walk_of_not_directory rfl]
    exact List.nodup_singleton _
  | directory ms ih =>
    obtain ⟨hnodup, hmembers⟩ := isProper_directory_iff.1 ht
    rw [walk_directory]
    -- The rules stay what they are among the members of one directory.
    generalize c.rulesAt names :: rules = rules'
    clear ht
    induction ms with
    | nil =>
      rw [walkMembers]
      exact List.nodup_nil
    | cons m ms ihms =>
      rw [List.map_cons, List.nodup_cons] at hnodup
      rw [List.forall_mem_cons] at ih hmembers
      rw [walkMembers, List.nodup_append]
      refine ⟨?_, ihms ih.2 hnodup.2 hmembers.2, ?_⟩
      · split
        · exact List.nodup_nil
        · exact ih.1 hmembers.1.2
      · -- Places below different members differ in the name of the member.
        rintro place hplace _ hother rfl
        obtain ⟨k, hk, -, hplace'⟩ := mem_walkMembers_iff.1 hother
        split at hplace
        · cases hplace
        · obtain ⟨rest, -, hrest, -⟩ := (mem_walk_iff hmembers.1.2).1 hplace
          obtain ⟨rest', -, hrest', -⟩ := (mem_walk_iff (hmembers.2 k hk).2).1 hplace'
          rw [hrest, List.append_assoc, List.append_assoc] at hrest'
          have hname : m.1 = k.1 := (List.cons.inj (List.append_cancel_left hrest')).1
          exact hnodup.1 (hname ▸ List.mem_map_of_mem hk)

end FileTree

end ImportLint

import ImportLint.FileTree.Basic

/-!
# Places in a file tree

A tree is **proper** if it could be that of a file system: no directory has two members of one name,
and a name is not empty, holds no slash, and is not one of the names that a directory has for itself
and for the one above it. In a proper tree a place is found exactly by way of the members of
directories.
-/

namespace ImportLint

/-- Whether a name may be that of a member of a directory. -/
def isProperName (n : FileName) : Bool :=
  !n.isEmpty && !n.contains Path.slash && n != [Path.dot] && n != [Path.dot, Path.dot]

/-- A name is proper if it is not empty, has no slash and is neither one dot nor two. -/
theorem isProperName_iff {n : FileName} : isProperName n = true ↔
    n ≠ [] ∧ Path.slash ∉ n ∧ n ≠ [Path.dot] ∧ n ≠ [Path.dot, Path.dot] := by
  simp [isProperName, and_assoc]

namespace FileTree

mutual

/-- Whether a tree could be that of a file system. -/
def isProper : FileTree → Bool
  | directory ms => decide (ms.map Prod.fst).Nodup && areProper ms
  | _ => true

/-- Whether members of a directory have proper names and trees. -/
def areProper : List (FileName × FileTree) → Bool
  | [] => true
  | (n, t) :: ms => isProperName n && isProper t && areProper ms

end

/-- Members are proper if each has a proper name and a proper tree. -/
theorem areProper_iff {ms : List (FileName × FileTree)} :
    areProper ms = true ↔ ∀ m ∈ ms, isProperName m.1 = true ∧ m.2.isProper = true := by
  induction ms with
  | nil => simp [areProper]
  | cons m ms ih => simp [areProper, ih, and_assoc]

/-- A directory is proper if its members are and no two have one name. -/
theorem isProper_directory_iff {ms : List (FileName × FileTree)} : (directory ms).isProper = true ↔
    (ms.map Prod.fst).Nodup ∧ ∀ m ∈ ms, isProperName m.1 = true ∧ m.2.isProper = true := by
  rw [isProper, Bool.and_eq_true, decide_eq_true_eq, areProper_iff]

/-! ## Members -/

/-- What is found under a name is a member of that name. -/
theorem mem_of_find? {n : FileName} {ms : List (FileName × FileTree)} {t : FileTree}
    (h : find? n ms = some t) : (n, t) ∈ ms := by
  obtain ⟨m, hm, rfl⟩ := Option.map_eq_some_iff.1 h
  have hname : m.1 = n := by simpa using List.find?_some hm
  rw [← hname]
  exact List.mem_of_find?_eq_some hm

/-- Where names are different, a member is what its name stands for. -/
theorem find?_eq_some_iff {n : FileName} {ms : List (FileName × FileTree)} {t : FileTree}
    (hnodup : (ms.map Prod.fst).Nodup) : find? n ms = some t ↔ (n, t) ∈ ms := by
  constructor
  · exact mem_of_find?
  · intro hmem
    induction ms with
    | nil => cases hmem
    | cons m ms ih =>
      rw [List.map_cons, List.nodup_cons] at hnodup
      by_cases hname : m.1 = n
      · rcases List.mem_cons.1 hmem with heq | hmem
        · subst heq
          simp [find?]
        · exact absurd (List.mem_map.2 ⟨(n, t), hmem, hname.symm⟩) hnodup.1
      · have htail : (n, t) ∈ ms := by
          rcases List.mem_cons.1 hmem with heq | hmem
          · subst heq
            exact absurd rfl hname
          · exact hmem
        have hrest := ih hnodup.2 htail
        rw [find?, List.find?_cons_of_neg (by simpa using hname)]
        exact hrest

/-! ## Places -/

/-- At no names is the tree itself. -/
@[simp] theorem at?_nil (t : FileTree) : t.at? [] = some t := by
  cases t <;> rfl

/-- In a directory the first name is that of a member. -/
theorem at?_cons_directory (n : FileName) (ns : List FileName) (ms : List (FileName × FileTree)) :
    (directory ms).at? (n :: ns) = (find? n ms).bind (at? ns) := rfl

/-- A name stands for the first member that has it. -/
theorem at?_cons_cons (n k : FileName) (rest : List FileName) (t : FileTree)
    (ms : List (FileName × FileTree)) :
    (directory ((n, t) :: ms)).at? (k :: rest) = if n = k then t.at? rest else
      (directory ms).at? (k :: rest) := by
  rw [at?_cons_directory, at?_cons_directory, find?, find?]
  split
  · next h => rw [List.find?_cons_of_pos (by simpa using h), Option.map_some, Option.bind_some]
  · next h => rw [List.find?_cons_of_neg (by simpa using h)]

/-- A place with names in it is one in a directory. -/
theorem at?_cons_eq_some_iff {n : FileName} {ns : List FileName} {t u : FileTree} :
    t.at? (n :: ns) = some u ↔ ∃ ms v, t = directory ms ∧ find? n ms = some v ∧
      v.at? ns = some u := by
  cases t with
  | directory ms => simp [at?_cons_directory, Option.bind_eq_some_iff]
  | _ => simp [at?]

/-- A place is found from a place on the way to it. -/
theorem at?_append (t : FileTree) (place names : List FileName) :
    t.at? (place ++ names) = (t.at? place).bind (at? names) := by
  induction place generalizing t with
  | nil => simp
  | cons n ns ih =>
    cases t with
    | directory ms =>
      rw [List.cons_append, at?_cons_directory, at?_cons_directory, Option.bind_assoc]
      congr 1
      funext u
      exact ih u
    | _ => rfl

/-- What is at a place of a proper tree is proper, and the names on the way to it are. -/
theorem isProper_of_at? {t u : FileTree} {place : List FileName} (ht : t.isProper = true)
    (hplace : t.at? place = some u) : u.isProper = true ∧ ∀ n ∈ place, isProperName n = true := by
  induction place generalizing t with
  | nil =>
    obtain rfl : t = u := by simpa using hplace
    exact ⟨ht, by simp⟩
  | cons n ns ih =>
    obtain ⟨ms, v, rfl, hfind, hv⟩ := at?_cons_eq_some_iff.1 hplace
    obtain ⟨hname, hproper⟩ := (isProper_directory_iff.1 ht).2 _ (mem_of_find? hfind)
    obtain ⟨hu, hnames⟩ := ih hproper hv
    exact ⟨hu, List.forall_mem_cons.2 ⟨hname, hnames⟩⟩

/-- What is above a place with more names in it is a directory. -/
theorem exists_directory_of_at? {t u : FileTree} {place : List FileName} {n : FileName}
    {ns : List FileName} (h : t.at? (place ++ n :: ns) = some u) :
    ∃ ms, t.at? place = some (directory ms) := by
  rw [at?_append, Option.bind_eq_some_iff] at h
  obtain ⟨v, hv, hu⟩ := h
  obtain ⟨ms, -, rfl, -, -⟩ := at?_cons_eq_some_iff.1 hu
  exact ⟨ms, hv⟩

/-- What is on the way to a directory is a directory. -/
theorem exists_directory_on_way {t : FileTree} {front place : List FileName}
    (hfront : front <+: place) {ms : List (FileName × FileTree)}
    (h : t.at? place = some (directory ms)) : ∃ ks, t.at? front = some (directory ks) := by
  obtain ⟨rest, rfl⟩ := hfront
  cases rest with
  | nil =>
    rw [List.append_nil] at h
    exact ⟨ms, h⟩
  | cons n ns => exact exists_directory_of_at? h

/-- A directory in a directory is there by way of a member that is one. -/
theorem exists_mem_of_at? {ms ks : List (FileName × FileTree)} {place : List FileName}
    (h : (directory ms).at? place = some (directory ks)) : place = [] ∨
      ∃ n ls rest, (n, directory ls) ∈ ms ∧ place = n :: rest ∧
        (directory ls).at? rest = some (directory ks) := by
  rcases place with _ | ⟨n, rest⟩
  · exact .inl rfl
  · obtain ⟨_, u, heq, hfind, hu⟩ := at?_cons_eq_some_iff.1 h
    obtain rfl := directory.inj heq
    cases u with
    | directory ls => exact .inr ⟨n, ls, rest, mem_of_find? hfind, rfl, hu⟩
    | _ => cases rest <;> cases hu

/-! ## The names in a tree -/

mutual

/-- Whether all names in a tree pass a test. -/
def allNames (test : FileName → Bool) : FileTree → Bool
  | directory ms => allMembers test ms
  | _ => true

/-- Whether members of a directory and all names in their trees pass a test. -/
def allMembers (test : FileName → Bool) : List (FileName × FileTree) → Bool
  | [] => true
  | (n, t) :: ms => test n && allNames test t && allMembers test ms

end

variable {test : FileName → Bool}

/-- All names among members pass if those of the members do and those in their trees. -/
theorem allMembers_iff {ms : List (FileName × FileTree)} :
    allMembers test ms = true ↔ ∀ m ∈ ms, test m.1 = true ∧ m.2.allNames test = true := by
  induction ms with
  | nil => simp [allMembers]
  | cons m ms ih => simp [allMembers, ih, and_assoc]

/-- What is below a place has names that pass if all names in the tree do. -/
theorem allNames_at? {t u : FileTree} {place : List FileName} (ht : t.allNames test = true)
    (h : t.at? place = some u) : u.allNames test = true := by
  induction place generalizing t with
  | nil =>
    obtain rfl : t = u := by simpa using h
    exact ht
  | cons n ns ih =>
    obtain ⟨ms, v, rfl, hfind, hv⟩ := at?_cons_eq_some_iff.1 h
    rw [allNames, allMembers_iff] at ht
    exact ih (ht _ (mem_of_find? hfind)).2 hv

/-- The names on the way to a place pass if all names in the tree do. -/
theorem allNames_of_at? {t u : FileTree} {place : List FileName} (ht : t.allNames test = true)
    (h : t.at? place = some u) : ∀ n ∈ place, test n = true := by
  induction place generalizing t with
  | nil => simp
  | cons n ns ih =>
    obtain ⟨ms, v, rfl, hfind, hv⟩ := at?_cons_eq_some_iff.1 h
    rw [allNames, allMembers_iff] at ht
    obtain ⟨hname, hnames⟩ := ht _ (mem_of_find? hfind)
    exact List.forall_mem_cons.2 ⟨hname, ih hnames hv⟩

end FileTree

end ImportLint

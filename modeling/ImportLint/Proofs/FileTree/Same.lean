import ImportLint.Analysis.Discovery
import ImportLint.Proofs.FileTree.Follow

/-!
# Trees that differ in their listing or in their contents

A directory lists its members in some order. Paths do not depend on it, nor on what is in files: in
trees with things of one kind at each place a path leads to the same place. It leads to the same
content, unless the trees differ at that place, and trees that have the same files differ nowhere.
-/

namespace ImportLint.FileTree

/-! ## The same places -/

/-- A tree without what is in its files and directories. -/
def kind : FileTree → FileTree
  | file _ => file []
  | link target => link target
  | directory _ => directory []

/-- Trees that have things of one kind at a place. -/
def SameKindAt (t u : FileTree) (place : List FileName) : Prop :=
  (t.at? place).map kind = (u.at? place).map kind

/-- Trees that have things of one kind at each place. -/
def SamePlaces (t u : FileTree) : Prop := ∀ place, (t.at? place).map kind = (u.at? place).map kind

/-- A thing has the kind of a directory exactly if it is a directory. -/
theorem map_kind_eq_some_directory_iff {x : Option FileTree} :
    x.map kind = some (directory []) ↔ ∃ ms, x = some (directory ms) := by
  rcases x with _ | _ | _ | _ <;> simp [kind]

/-- A thing has the kind of a link exactly if it is that link. -/
theorem map_kind_eq_some_link_iff {x : Option FileTree} {target : Path} :
    x.map kind = some (link target) ↔ x = some (link target) := by
  rcases x with _ | _ | _ | _ <;> simp [kind]

namespace SameKindAt

variable {t u : FileTree} {place : List FileName}

/-- Having things of one kind at a place is symmetric. -/
theorem symm (h : t.SameKindAt u place) : u.SameKindAt t place := Eq.symm h

/-- There is something at a place in both trees or in neither. -/
theorem isSome_at? (h : t.SameKindAt u place) : (t.at? place).isSome = (u.at? place).isSome := by
  have hkind := congrArg Option.isSome h
  rwa [Option.isSome_map, Option.isSome_map] at hkind

/-- What is at a place in one tree is a directory if what is there in the other tree is. -/
theorem exists_at? (h : t.SameKindAt u place) {v : FileTree} (hv : t.at? place = some v) :
    ∃ w, u.at? place = some w ∧ w.isDirectory = v.isDirectory := by
  unfold SameKindAt at h
  rw [hv, Option.map_some, eq_comm, Option.map_eq_some_iff] at h
  obtain ⟨w, hw, hwv⟩ := h
  refine ⟨w, hw, ?_⟩
  cases v <;> cases w <;> first | rfl | cases hwv

/-- Where one tree has a directory, the other has one. -/
theorem exists_directory (h : t.SameKindAt u place) {ms : List (FileName × FileTree)}
    (hms : t.at? place = some (directory ms)) : ∃ ks, u.at? place = some (directory ks) := by
  unfold SameKindAt at h
  rw [map_kind_eq_some_directory_iff.2 ⟨ms, hms⟩, eq_comm] at h
  exact map_kind_eq_some_directory_iff.1 h

/-- Where there are directories, things are of one kind. -/
theorem of_directory {ms ks : List (FileName × FileTree)} (hms : t.at? place = some (directory ms))
    (hks : u.at? place = some (directory ks)) : t.SameKindAt u place := by
  rw [SameKindAt, hms, hks]
  rfl

/-- A member of a directory is what is at the place of its name. -/
theorem map_kind_find? {n : FileName} {ms ks : List (FileName × FileTree)}
    (hms : t.at? place = some (directory ms)) (hks : u.at? place = some (directory ks))
    (h : t.SameKindAt u (place ++ [n])) : (find? n ms).map kind = (find? n ks).map kind := by
  have hbelow {v : FileTree} {ls : List (FileName × FileTree)}
    (hls : v.at? place = some (directory ls)) :
      v.at? (place ++ [n]) = find? n ls := by
    rw [at?_append, hls, Option.bind_some, at?_cons_directory]
    cases find? n ls with
    | none => rfl
    | some w => exact at?_nil w
  rwa [SameKindAt, hbelow hms, hbelow hks] at h

end SameKindAt

/-- **A path leads to the same place** in trees that have things of one kind where it starts and at
the places that it asks for, and then also where it leads. -/
theorem follow_eq_of_asks {t u : FileTree} {links : Nat} {here : List FileName}
    {segments : List (List UInt8)} (hhere : t.SameKindAt u here)
    (hasks : ∀ place, t.Asks links here segments place → t.SameKindAt u place) :
    t.follow links here segments = u.follow links here segments ∧
      ∀ place, t.follow links here segments = some place → t.SameKindAt u place := by
  -- A step asks for no more than the kind of a member, and the target of a link belongs to its
  -- kind.
  fun_induction follow t links here segments with
  | case1 links here hsome =>
    rw [follow_nil, ← hhere.isSome_at?, if_pos hsome]
    refine ⟨rfl, ?_⟩
    rintro _ ⟨⟩
    exact hhere
  | case2 links here hnone =>
    rw [follow_nil, ← hhere.isSome_at?, if_neg hnone]
    exact ⟨rfl, by simp⟩
  | case3 links here s rest ms hms hidle ih =>
    obtain ⟨ks, hks⟩ := hhere.exists_directory hms
    rw [follow_cons_idle hks hidle]
    exact ih hhere fun place hplace => hasks place (.idle hms hidle hplace)
  | case4 links here s rest ms hms hidle habove ih =>
    obtain ⟨ks, hks⟩ := hhere.exists_directory hms
    obtain ⟨ms', hms'⟩ := exists_directory_on_way (List.dropLast_prefix here) hms
    obtain ⟨ks', hks'⟩ := exists_directory_on_way (List.dropLast_prefix here) hks
    rw [follow_cons_above hks hidle habove]
    exact ih (.of_directory hms' hks') fun place hplace =>
      hasks place (.above hms hidle habove hplace)
  | case5 links here s rest ms hms hidle habove hfind =>
    obtain ⟨ks, hks⟩ := hhere.exists_directory hms
    have hkind := SameKindAt.map_kind_find? hms hks (hasks _ (.name hms hidle habove))
    rw [hfind, Option.map_none, eq_comm, Option.map_eq_none_iff] at hkind
    rw [follow_cons_missing hks hidle habove hkind]
    exact ⟨rfl, by simp⟩
  | case6 here s rest ms hms hidle habove target hfind =>
    obtain ⟨ks, hks⟩ := hhere.exists_directory hms
    have hkind := SameKindAt.map_kind_find? hms hks (hasks _ (.name hms hidle habove))
    rw [map_kind_eq_some_link_iff.2 hfind, eq_comm, map_kind_eq_some_link_iff] at hkind
    rw [follow_cons_last_link hks hidle habove hkind]
    exact ⟨rfl, by simp⟩
  | case7 here s rest ms hms hidle habove target hfind n ih =>
    obtain ⟨ks, hks⟩ := hhere.exists_directory hms
    have hkind := SameKindAt.map_kind_find? hms hks (hasks _ (.name hms hidle habove))
    rw [map_kind_eq_some_link_iff.2 hfind, eq_comm, map_kind_eq_some_link_iff] at hkind
    have hstart : t.SameKindAt u (if target.isAbsolute then [] else here) := by
      split
      · obtain ⟨ms', hms'⟩ := exists_directory_on_way List.nil_prefix hms
        obtain ⟨ks', hks'⟩ := exists_directory_on_way List.nil_prefix hks
        exact .of_directory hms' hks'
      · exact hhere
    rw [follow_cons_link hks hidle habove hkind]
    exact ih hstart fun place hplace => hasks place (.link hms hidle habove hfind hplace)
  | case8 links here s rest ms hms hidle habove v hlink hfind ih =>
    obtain ⟨ks, hks⟩ := hhere.exists_directory hms
    have hnext := hasks _ (.name hms hidle habove)
    have hkind := SameKindAt.map_kind_find? hms hks hnext
    rw [hfind, Option.map_some, eq_comm, Option.map_eq_some_iff] at hkind
    obtain ⟨w, hw, hwv⟩ := hkind
    have hlink' : ∀ target, w ≠ link target := by
      rintro target rfl
      exact hlink target (Option.some.inj (map_kind_eq_some_link_iff.1 (congrArg some hwv.symm)))
    rw [follow_cons_member hks hidle habove hw hlink']
    exact ih hnext fun place hplace => hasks place (.member hms hidle habove hfind hlink hplace)
  | case9 links here s rest hnot =>
    have hnot' : ∀ ks, u.at? here ≠ some (directory ks) := by
      intro ks hks
      obtain ⟨ms, hms⟩ := hhere.symm.exists_directory hks
      exact hnot ms hms
    rw [follow_cons_of_not_directory hnot']
    exact ⟨rfl, by simp⟩

namespace SamePlaces

variable {t u : FileTree} (h : t.SamePlaces u)

include h

/-- Having things of one kind at each place is symmetric. -/
theorem symm : u.SamePlaces t := fun place => (h place).symm

/-- What is at a place in one tree is a directory if what is there in the other tree is. -/
theorem exists_at? {place : List FileName} {v : FileTree} (hv : t.at? place = some v) :
    ∃ w, u.at? place = some w ∧ w.isDirectory = v.isDirectory :=
  SameKindAt.exists_at? (h place) hv

/-- A path leads to the same place in trees with things of one kind at each place. -/
theorem follow_eq {links : Nat} {here : List FileName} {segments : List (List UInt8)} :
    t.follow links here segments = u.follow links here segments :=
  (follow_eq_of_asks (h here) fun place _ => h place).1

/-- A path leads to the same place in both trees. -/
theorem locate?_eq (p : Path) : t.locate? p = u.locate? p := h.follow_eq

end SamePlaces

/-! ## Other contents -/

/-- Trees **differ at** a place if both have a file there and the files have different contents. -/
def DiffersAt (t u : FileTree) (place : List FileName) : Prop :=
  ∃ content other, t.at? place = some (file content) ∧
    u.at? place = some (file other) ∧ content ≠ other

/-- Differing at a place is symmetric. -/
theorem DiffersAt.symm {t u : FileTree} {place : List FileName} (h : t.DiffersAt u place) :
    u.DiffersAt t place := by
  obtain ⟨content, other, hcontent, hother, hne⟩ := h
  exact ⟨other, content, hother, hcontent, hne.symm⟩

/-- A thing has the kind of a file exactly if it is a file. -/
theorem map_kind_eq_some_file_iff {x : Option FileTree} :
    x.map kind = some (file []) ↔ ∃ content, x = some (file content) := by
  rcases x with _ | _ | _ | _ <;> simp [kind]

/-- A path is read exactly if it leads to a file. -/
theorem read?_eq_some_iff {t : FileTree} {p : Path} {content : List UInt8} :
    t.read? p = some content ↔ t.resolve? p = some (file content) := by
  unfold read?
  split <;> simp_all

/-- What is made of a file, and of nothing else, is the same where the same files are. -/
theorem match_file_congr {α : Type} {o o' : Option FileTree} (f : List UInt8 → α) (d : α) :
    (∀ content, o = some (file content) ↔ o' = some (file content)) →
      (match o with | some (file content) => f content | _ => d) =
        match o' with | some (file content) => f content | _ => d := by
  intro h
  split
  · next content => rw [(h content).1 rfl]
  · next hnone =>
    split
    · next content => exact absurd ((h content).2 rfl) (hnone content)
    · rfl

/-- Trees that are **alike** at a place: things of one kind are there, and no files of different
contents. -/
structure AlikeAt (t u : FileTree) (place : List FileName) : Prop where
  kind : t.SameKindAt u place
  content : ¬ t.DiffersAt u place

namespace AlikeAt

variable {t u : FileTree} {place : List FileName}

/-- Being alike at a place is symmetric. -/
theorem symm (h : t.AlikeAt u place) : u.AlikeAt t place :=
  ⟨h.kind.symm, fun hdiffers => h.content hdiffers.symm⟩

/-- A file at a place in one tree is at it in the other. -/
theorem at?_eq_some_file (h : t.AlikeAt u place) {content : List UInt8}
    (hfile : t.at? place = some (file content)) : u.at? place = some (file content) := by
  have hkind := h.kind
  rw [SameKindAt, map_kind_eq_some_file_iff.2 ⟨content, hfile⟩, eq_comm, map_kind_eq_some_file_iff]
    at hkind
  obtain ⟨other, hother⟩ := hkind
  have heq : content = other :=
    Decidable.byContradiction fun hne => h.content ⟨content, other, hfile, hother, hne⟩
  rw [hother, heq]

/-- At a place where trees are alike, they have the same file or none. -/
theorem at?_eq_some_file_iff (h : t.AlikeAt u place) {content : List UInt8} :
    t.at? place = some (file content) ↔ u.at? place = some (file content) :=
  ⟨h.at?_eq_some_file, h.symm.at?_eq_some_file⟩

/-- Directories are alike. -/
theorem of_directory {ms ks : List (FileName × FileTree)} (hms : t.at? place = some (directory ms))
    (hks : u.at? place = some (directory ks)) : t.AlikeAt u place where
  kind := .of_directory hms hks
  content := by
    rintro ⟨content, other, hcontent, -⟩
    rw [hms] at hcontent
    cases hcontent

/-- A tree is alike itself. -/
theorem refl (t : FileTree) (place : List FileName) : t.AlikeAt t place where
  kind := rfl
  content := by
    rintro ⟨content, other, hcontent, hother, hne⟩
    rw [hcontent] at hother
    exact hne (file.inj (Option.some.inj hother))

/-- Where nothing is in either tree, they are alike. -/
theorem of_none (ht : t.at? place = none) (hu : u.at? place = none) : t.AlikeAt u place where
  kind := by rw [SameKindAt, ht, hu]
  content := by
    rintro ⟨content, other, hcontent, -⟩
    rw [ht] at hcontent
    cases hcontent

/-- Whether trees are alike depends on what is there alone. -/
theorem of_eq {v w : FileTree} {place' : List FileName} (h : v.AlikeAt w place')
    (ht : t.at? place = v.at? place') (hu : u.at? place = w.at? place') : t.AlikeAt u place where
  kind := by
    rw [SameKindAt, ht, hu]
    exact h.kind
  content := by
    rw [DiffersAt, ht, hu]
    exact h.content

variable {n : FileName} {ms ks : List (FileName × FileTree)}

/-- Directories are alike below a member if what it stands for is, and elsewhere if the others
are. -/
theorem cons {v w : FileTree} (hmember : ∀ rest, place = n :: rest → v.AlikeAt w rest)
    (hrest : (directory ms).AlikeAt (directory ks) place) :
    (directory ((n, v) :: ms)).AlikeAt (directory ((n, w) :: ks)) place := by
  rcases place with _ | ⟨k, rest⟩
  · exact .of_directory rfl rfl
  by_cases hk : n = k
  · refine (hmember rest (by rw [hk])).of_eq ?_ ?_ <;> rw [at?_cons_cons, if_pos hk]
  · refine hrest.of_eq ?_ ?_ <;> rw [at?_cons_cons, if_neg hk]

/-- On the way to a place where trees are alike and have something, they are alike. -/
theorem of_append {front rest : List FileName} (h : t.AlikeAt u (front ++ rest)) {v : FileTree}
    (hv : t.at? (front ++ rest) = some v) : t.AlikeAt u front := by
  cases rest with
  | nil => rwa [List.append_nil] at h
  | cons n ns =>
    obtain ⟨w, hw, -⟩ := h.kind.exists_at? hv
    obtain ⟨ms, hms⟩ := exists_directory_of_at? hv
    obtain ⟨ks, hks⟩ := exists_directory_of_at? hw
    exact of_directory hms hks

end AlikeAt

/-- A path leads to the same place in trees that are alike where it starts and at the places that it
asks for, and they are alike where it leads. -/
theorem follow_eq_of_alikeAt {t u : FileTree} {links : Nat} {here : List FileName}
    {segments : List (List UInt8)} (hhere : t.AlikeAt u here)
    (hasks : ∀ place, t.Asks links here segments place → t.AlikeAt u place) :
    t.follow links here segments = u.follow links here segments ∧
      ∀ place, t.follow links here segments = some place → t.AlikeAt u place := by
  obtain ⟨heq, hkind⟩ := follow_eq_of_asks hhere.kind fun place hplace => (hasks place hplace).kind
  refine ⟨heq, fun place hplace => ?_⟩
  rcases eq_or_asks_or_directory_of_follow hplace with rfl | hplace' | ⟨ms, hms⟩
  · exact hhere
  · exact hasks place hplace'
  · obtain ⟨ks, hks⟩ := (hkind place hplace).exists_directory hms
    exact .of_directory hms hks

namespace SamePlaces

variable {t u : FileTree} (h : t.SamePlaces u)

include h

/-- Where there is a file in one tree, there is one in the other. -/
theorem exists_file {place : List FileName} {content : List UInt8}
    (hfile : t.at? place = some (file content)) : ∃ other, u.at? place = some (file other) := by
  rw [← map_kind_eq_some_file_iff, ← h place, map_kind_eq_some_file_iff]
  exact ⟨content, hfile⟩

/-- Where trees do not differ, they have the same file or none. -/
theorem at?_eq_some_file_iff {place : List FileName} (hsame : ¬ t.DiffersAt u place)
    {content : List UInt8} :
    t.at? place = some (file content) ↔ u.at? place = some (file content) :=
  AlikeAt.at?_eq_some_file_iff ⟨h place, hsame⟩

/-- A path that does not lead where trees differ leads to the same file in both, or to none. -/
theorem resolve?_eq_some_file_iff {p : Path}
    (hsame : ∀ place, t.locate? p = some place → ¬ t.DiffersAt u place) {content : List UInt8} :
    t.resolve? p = some (file content) ↔ u.resolve? p = some (file content) := by
  rw [resolve?, resolve?, ← h.locate?_eq]
  cases hplace : t.locate? p with
  | none => exact Iff.rfl
  | some place => exact h.at?_eq_some_file_iff (hsame place hplace)

/-- A path that leads to no other content is read as the same text. -/
theorem readText?_eq {p : Path}
    (hsame : ∀ place, t.locate? p = some place → ¬ t.DiffersAt u place) :
    t.readText? p = u.readText? p := by
  have hread : t.read? p = u.read? p := by
    ext content
    rw [read?_eq_some_iff, read?_eq_some_iff, h.resolve?_eq_some_file_iff hsame]
  rw [readText?, readText?, hread]

end SamePlaces

/-! ## The same files -/

/-- Trees that have the same things at the same places, and may differ in how directories list
them. -/
structure SameFiles (t u : FileTree) : Prop where
  places : t.SamePlaces u
  contents : ∀ place content, t.at? place = some (file content) ↔ u.at? place = some (file content)

/-- Trees with the same files differ nowhere. -/
theorem SameFiles.not_differsAt {t u : FileTree} (h : t.SameFiles u) (place : List FileName) :
    ¬ t.DiffersAt u place := by
  rintro ⟨content, other, hcontent, hother, hne⟩
  have hfile := (h.contents place content).1 hcontent
  rw [hother] at hfile
  exact hne (file.inj (Option.some.inj hfile)).symm

/-- The order of members does not matter for looking one up, as no two have one name. -/
theorem find?_eq_of_perm {ms ks : List (FileName × FileTree)} (hnodup : (ms.map Prod.fst).Nodup)
    (hperm : ms.Perm ks) (n : FileName) : find? n ms = find? n ks := by
  have hnodup' : (ks.map Prod.fst).Nodup := (hperm.map Prod.fst).nodup_iff.1 hnodup
  ext t
  rw [find?_eq_some_iff hnodup, find?_eq_some_iff hnodup', hperm.mem_iff]

/-- A directory may list its members in another order. -/
theorem sameFiles_of_perm {ms ks : List (FileName × FileTree)} (hnodup : (ms.map Prod.fst).Nodup)
    (hperm : ms.Perm ks) : (directory ms).SameFiles (directory ks) := by
  have hat (n : FileName) (ns : List FileName) :
      (directory ms).at? (n :: ns) = (directory ks).at? (n :: ns) := by
    rw [at?_cons_directory, at?_cons_directory, find?_eq_of_perm hnodup hperm]
  constructor
  · intro place
    cases place with
    | nil => rfl
    | cons n ns => rw [hat]
  · intro place content
    cases place with
    | nil => simp
    | cons n ns => rw [hat]

end ImportLint.FileTree

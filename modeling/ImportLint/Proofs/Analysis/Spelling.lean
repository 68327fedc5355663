import ImportLint.Proofs.Analysis.Footprint

/-!
# Roots that are written differently

One directory may be written in many ways, and a root that is read in it is then written in as many.
All of them lead to the same place and on from there to the same files, unless so many links are on
the way in one of them that the limit is overrun. An extension is that of a name, and what has no
name at its end is a directory.
-/

namespace ImportLint

namespace FileTree

/-- A path **overruns** the limit on links if it leads nowhere, but would lead somewhere if more
were allowed. -/
def Overruns (root : FileTree) (p : Path) : Prop :=
  root.locate? p = none ∧ ∃ links, (root.follow links [] p.segments).isSome = true

section

variable {t u : FileTree} {dir dir' p : Path} {base : List FileName}

/-- A path that leads somewhere from one spelling of a directory leads there from another, unless it
overruns. -/
theorem locate?_join_eq_some (hdir : t.locate? dir = some base) (hdir' : u.locate? dir' = some base)
    (hbase : t.AlikeAt u base) (hp : p.isAbsolute = false)
    (hasks : ∀ place, t.Asks maxLinks [] (dir / p).segments place → t.AlikeAt u place)
    (hover : ¬ u.Overruns (dir' / p)) {place : List FileName}
    (h : t.locate? (dir / p) = some place) :
    u.locate? (dir' / p) = some place ∧ t.AlikeAt u place := by
  obtain ⟨left, -, hjoin⟩ := exists_follow_join hdir
  obtain ⟨left', -, hjoin'⟩ := exists_follow_join hdir'
  obtain ⟨hfollow, hasks'⟩ := hjoin p hp
  obtain ⟨hfollow', -⟩ := hjoin' p hp
  have hplace : t.follow left base p.segments = some place := (hfollow 0).symm.trans h
  obtain ⟨heq, halike⟩ := follow_eq_of_alikeAt hbase fun q hq => hasks q (hasks' q hq)
  rw [heq] at hplace
  refine ⟨?_, halike place (heq.trans hplace)⟩
  -- With as many links as both spellings leave, the other leads there too.
  have hmore : u.follow (left' + left) base p.segments = some place :=
    follow_mono (Nat.le_add_left left left') hplace
  cases hother : u.locate? (dir' / p) with
  | none => exact absurd ⟨hother, _, by rw [hfollow' left, hmore]; rfl⟩ hover
  | some other =>
    have hless : u.follow left' base p.segments = some other := (hfollow' 0).symm.trans hother
    rw [← hmore, follow_mono (Nat.le_add_right left' left) hless]

/-- **Spellings of one directory** lead alike, in trees that are alike at what they ask for. -/
theorem locate?_join_eq (hdir : t.locate? dir = some base) (hdir' : u.locate? dir' = some base)
    (htop : t.AlikeAt u []) (hbase : t.AlikeAt u base)
    (hasks : ∀ place,
      t.Asks maxLinks [] (dir / p).segments place ∨ u.Asks maxLinks [] (dir' / p).segments place →
      t.AlikeAt u place)
    (hover : t.Overruns (dir / p) ↔ u.Overruns (dir' / p)) :
    t.locate? (dir / p) = u.locate? (dir' / p) ∧
      ∀ place, t.locate? (dir / p) = some place → t.AlikeAt u place := by
  -- An absolute path leads away from either directory.
  by_cases hp : p.isAbsolute = true
  · rw [Path.join_of_isAbsolute dir hp, Path.join_of_isAbsolute dir' hp] at *
    exact follow_eq_of_alikeAt htop fun place hplace => hasks place (.inl hplace)
  rw [Bool.not_eq_true] at hp
  have hleft {place : List FileName} (h : t.locate? (dir / p) = some place) :=
    locate?_join_eq_some hdir hdir' hbase hp (fun place hplace => hasks place (.inl hplace))
      (fun hoverruns => by cases h.symm.trans (hover.2 hoverruns).1) h
  refine ⟨?_, fun place h => (hleft h).2⟩
  cases h : t.locate? (dir / p) with
  | some place => exact (hleft h).1.symm
  | none =>
    rw [eq_comm, Option.eq_none_iff_forall_ne_some]
    intro place h'
    have hright :=
      locate?_join_eq_some hdir' hdir hbase.symm hp
        (fun place hplace => (hasks place (.inr hplace)).symm)
      (fun hoverruns => by cases h'.symm.trans (hover.1 hoverruns).1) h'
    cases h.symm.trans hright.1

end

/-- A path of pieces that say nothing stays in its directory. -/
theorem follow_of_isIdle {root : FileTree} {links : Nat} {here : List FileName}
    {ms : List (FileName × FileTree)} (hms : root.at? here = some (directory ms))
    {segments : List FileName} (hidle : ∀ s ∈ segments, Path.isIdle s = true) :
    root.follow links here segments = some here := by
  induction segments with
  | nil =>
    rw [follow_nil, hms]
    rfl
  | cons s rest ih =>
    rw [List.forall_mem_cons] at hidle
    rw [follow_cons_idle hms hidle.1, ih hidle.2]

end FileTree

namespace Analyzer

variable {a b : Analyzer} {m k : Machine} {dir dir' p : Path} {base names : List FileName}

/-- A path below a root that is spelled from a directory is spelled from it as well. -/
theorem pathAt_of_root (h : a.root = dir / p) :
    a.pathAt names = dir / (if names.isEmpty then p else p / pathOfNames names) := by
  unfold pathAt
  split
  · exact h
  · rw [h, Path.join_assoc]

/-- Roots that are read in one directory lead alike, however the directory is written. -/
theorem leadsAs_of_root (hroot : a.root = dir / p) (hroot' : b.root = dir' / p)
    (hdir : m.files.locate? dir = some base) (hdir' : k.files.locate? dir' = some base)
    (htop : m.files.AlikeAt k.files []) (hbase : m.files.AlikeAt k.files base)
    (hover : ∀ names, m.files.Overruns (a.pathAt names) ↔ k.files.Overruns (b.pathAt names)) :
    a.LeadsAs b m k := by
  intro names hasks
  have hover := hover names
  rw [pathAt_of_root hroot, pathAt_of_root hroot'] at *
  exact FileTree.locate?_join_eq hdir hdir' htop hbase hasks hover

/-- They have the same extension, unless they lead to a directory. -/
theorem extensionOf?_join (habs : dir.isAbsolute = true) (habs' : dir'.isAbsolute = true)
    (hdir : m.files.locate? dir = some base) {ms : List (FileName × FileTree)}
    (hms : m.files.at? base = some (.directory ms)) {place : List FileName} {u : FileTree}
    (hplace : m.files.locate? (dir / p) = some place) (hu : m.files.at? place = some u)
    (hfile : u.isDirectory = false) : extensionOf? (dir / p) = extensionOf? (dir' / p) := by
  by_cases hp : p.isAbsolute = true
  · rw [Path.join_of_isAbsolute dir hp, Path.join_of_isAbsolute dir' hp]
  rw [Bool.not_eq_true] at hp
  -- A path without names would lead to the directory, which is no file.
  have hne : p.segments.filterMap Path.component? ≠ [] := by
    intro hnil
    rw [List.filterMap_eq_nil_iff] at hnil
    obtain ⟨left, -, hjoin⟩ := FileTree.exists_follow_join hdir
    have hfollow := (hjoin p hp).1 0
    rw [FileTree.follow_of_isIdle hms fun s hs => Path.component?_eq_none_iff.1 (hnil s hs)]
      at hfollow
    obtain rfl := Option.some.inj (hplace.symm.trans hfollow)
    obtain rfl := Option.some.inj (hms.symm.trans hu)
    cases hfile
  have hlast : (dir / p).components.getLast? = (dir' / p).components.getLast? := by
    rw [Path.components_join_of_not_isAbsolute habs hp,
      Path.components_join_of_not_isAbsolute habs' hp, List.getLast?_append_of_ne_nil _ hne,
      List.getLast?_append_of_ne_nil _ hne]
  rw [extensionOf?, extensionOf?, Path.extension?, Path.extension?, Path.fileName?,
    Path.fileName?, hlast]

end Analyzer

end ImportLint

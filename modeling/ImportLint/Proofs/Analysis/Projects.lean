import ImportLint.Analysis.Run
import ImportLint.Proofs.Analysis.Listing
import ImportLint.Proofs.FileTree.Same

/-!
# Trees of one project

To an analyzer, trees are of **one project** if they have things of one kind at each place, and
differ neither in an ignore file nor behind a link. Their directories may list their members in
another order, and other files may have other contents. The walk asks for nothing of that: it comes
upon the same places, maybe in another order, and as the files are sorted, discovery answers the
same.
-/

namespace ImportLint

/-! ## What a path leads to -/

namespace Machine

variable {m : Machine} {t : FileTree} (h : m.files.SamePlaces t) {p : Path}

include h

section

variable (hsame : ∀ place,
  m.files.locate? (m.absolute p) = some place → ¬ m.files.DiffersAt t place)

include hsame

/-- A path that does not lead where the trees differ leads to the same file in both, or to none. -/
theorem resolve?_eq_some_file_iff {content : List UInt8} : m.resolve? p = some (.file content) ↔
    ({ m with files := t } : Machine).resolve? p = some (.file content) := by
  unfold resolve?
  split
  · exact Iff.rfl
  · exact h.resolve?_eq_some_file_iff hsame

/-- A path that leads to no other content is read as the same text. -/
theorem readText?_eq_of_samePlaces :
    m.readText? p = ({ m with files := t } : Machine).readText? p := by
  unfold readText?
  split
  · rfl
  · exact h.readText?_eq hsame

end

omit h in
/-- A path is that of a file if it leads to one. -/
theorem isFile_iff {k : Machine} : k.isFile p = true ↔ ∃ content,
    k.resolve? p = some (.file content) := by
  unfold isFile
  split <;> simp_all

/-- A path that leads to a file does so where the same places are. -/
theorem isFile_of_samePlaces (hfile : m.isFile p = true) :
    ({ m with files := t } : Machine).isFile p = true := by
  rw [isFile_iff] at hfile ⊢
  obtain ⟨content, hcontent⟩ := hfile
  unfold resolve? at hcontent ⊢
  split at hcontent
  · cases hcontent
  · next hne =>
    obtain ⟨place, hplace, hat⟩ := Option.bind_eq_some_iff.1 hcontent
    obtain ⟨other, hother⟩ := h.exists_file hat
    refine ⟨other, ?_⟩
    rw [if_neg hne, FileTree.resolve?, Option.bind_eq_some_iff]
    exact ⟨place, (h.locate?_eq (m.absolute p)).symm.trans hplace, hother⟩

/-- Whether a path leads to a file does not depend on contents. -/
theorem isFile_eq_of_samePlaces : m.isFile p = ({ m with files := t } : Machine).isFile p := by
  rw [Bool.eq_iff_iff]
  constructor
  · exact isFile_of_samePlaces h
  · exact isFile_of_samePlaces (m := { m with files := t }) h.symm

/-- The settings of git name the same file of the user's rules where they do not differ. -/
theorem globalIgnoreFile?_eq_of_samePlaces (hsettings : ∀ p ∈ m.gitSettings, ∀ place,
    m.files.locate? (m.absolute p) = some place → ¬ m.files.DiffersAt t place) :
    m.globalIgnoreFile? = ({ m with files := t } : Machine).globalIgnoreFile? := by
  have hnamed : ∀ p ∈ m.gitSettings,
      m.excludesFile? p = ({ m with files := t } : Machine).excludesFile? p := by
    intro p hp
    unfold excludesFile?
    exact FileTree.match_file_congr _ none fun content =>
      resolve?_eq_some_file_iff h (hsettings p hp)
  have hfirst : m.gitSettings.findSome? m.excludesFile? =
      m.gitSettings.findSome? ({ m with files := t } : Machine).excludesFile? := by
    rw [← List.head?_filterMap, ← List.head?_filterMap, List.filterMap_congr hnamed]
  unfold globalIgnoreFile?
  rw [hfirst]
  rfl

end Machine

namespace Analyzer

variable {a : Analyzer} {m : Machine} {t : FileTree} {base : List FileName}

/-! ## One project -/

/-- An **ignore file** of an analyzer: a file that counts, of a directory on the way to the root or
below it, or the file of the user, or one of the settings that may name it. -/
inductive IsIgnoreFile (a : Analyzer) (m : Machine) (place : List FileName) : Prop
  | ofDirectory {base directory : List FileName}
      {s : RuleSource} (hbase : m.files.locate? a.root = some base)
      (hdirectory : directory <+: base ∨ base <+: directory)
      (hcounts : s.counts a.config.respectGitignore = true)
      (hplace : m.files.follow FileTree.maxLinks directory s.file = some place)
  | ofSettings {p : Path} (hp : p ∈ m.gitSettings)
      (hplace : m.files.locate? (m.absolute p) = some place)
  | ofUser {p : Path} (hp : m.globalIgnoreFile? = some p)
      (hplace : m.files.locate? (m.absolute p) = some place)

/-- The files of a machine and another tree are of **one project**: there are the same places, the
ignore files are the same, and so are the files that links lead to. -/
structure SameProject (a : Analyzer) (m : Machine) (t : FileTree) : Prop where
  places : m.files.SamePlaces t
  ignoreFiles : ∀ place, a.IsIgnoreFile m place → ¬ m.files.DiffersAt t place
  links : ∀ place, m.files.IsLinked place → ¬ m.files.DiffersAt t place

/-- The user's own rules are in the same file. -/
theorem SameProject.globalIgnoreFile?_eq (h : a.SameProject m t) :
    m.globalIgnoreFile? = ({ m with files := t } : Machine).globalIgnoreFile? :=
  Machine.globalIgnoreFile?_eq_of_samePlaces h.places fun _ hp place hplace =>
    h.ignoreFiles place (.ofSettings hp hplace)

/-- The other tree has no other ignore files. -/
theorem IsIgnoreFile.of_sameProject (h : a.SameProject m t) {place : List FileName}
    (hplace : a.IsIgnoreFile { m with files := t } place) : a.IsIgnoreFile m place := by
  cases hplace with
  | ofDirectory hbase hdirectory hcounts hplace =>
    exact .ofDirectory ((h.places.locate?_eq _).trans hbase) hdirectory hcounts
      (h.places.follow_eq.trans hplace)
  | ofSettings hp hplace => exact .ofSettings hp ((h.places.locate?_eq _).trans hplace)
  | ofUser hp hplace =>
    exact .ofUser (h.globalIgnoreFile?_eq.trans hp) ((h.places.locate?_eq _).trans hplace)

/-- To be of one project is symmetric. -/
theorem SameProject.symm (h : a.SameProject m t) : a.SameProject { m with files := t } m.files where
  places := h.places.symm
  ignoreFiles place hplace hdiffers := h.ignoreFiles place (hplace.of_sameProject h) hdiffers.symm
  links place hplace hdiffers := by
    obtain ⟨here, n, target, hlink, hfollow⟩ := hplace
    have hlink' : m.files.at? (here ++ [n]) = some (.link target) := by
      rw [← FileTree.map_kind_eq_some_link_iff, h.places, FileTree.map_kind_eq_some_link_iff]
      exact hlink
    exact h.links place ⟨here, n, target, hlink', h.places.follow_eq.trans hfollow⟩ hdiffers.symm

/-- Trees with the same files are of one project, whatever the analyzer. -/
theorem sameProject_of_sameFiles (h : m.files.SameFiles t) : a.SameProject m t where
  places := h.places
  ignoreFiles place _ := h.not_differsAt place
  links place _ := h.not_differsAt place

section SameProject

/-! ## What decides on the walk -/

variable (h : a.SameProject m t)

include h

/-- The rules of the user are the same in one project. -/
theorem globalRules_eq_of_sameProject :
    m.globalRules = ({ m with files := t } : Machine).globalRules := by
  have hiff (content : List UInt8) : m.globalIgnoreFile?.bind m.resolve? = some (.file content) ↔
      m.globalIgnoreFile?.bind ({ m with files := t } : Machine).resolve? =
        some (.file content) := by
    cases hp : m.globalIgnoreFile? with
    | none => exact Iff.rfl
    | some p =>
      apply Machine.resolve?_eq_some_file_iff h.places
      intro place hplace
      exact h.ignoreFiles place (.ofUser hp hplace)
  unfold Machine.globalRules
  rw [← h.globalIgnoreFile?_eq]
  exact FileTree.match_file_congr Ignore.rulesOf [] hiff

section Rules

variable (hbase : m.files.locate? a.root = some base)

include hbase

/-- The rules of a directory above the root or below it have the same content in one project. -/
theorem content_eq_of_sameProject {directory : List FileName}
    (hdirectory : directory <+: base ∨ base <+: directory) (s : RuleSource) :
    s.content m.files a.config.respectGitignore directory =
      s.content t a.config.respectGitignore directory := by
  unfold RuleSource.content
  split
  · next hcounts =>
    have hiff (content : List UInt8) :
        ((m.files.follow FileTree.maxLinks directory s.file).bind fun place => m.files.at? place) =
            some (.file content) ↔
          ((t.follow FileTree.maxLinks directory s.file).bind fun place => t.at? place) =
            some (.file content) := by
      -- The same place is asked for in both trees, and it is one of an ignore file.
      rw [← h.places.follow_eq]
      cases hplace : m.files.follow FileTree.maxLinks directory s.file with
      | none => exact Iff.rfl
      | some place =>
        exact h.places.at?_eq_some_file_iff
          (h.ignoreFiles place (.ofDirectory hbase hdirectory hcounts hplace))
    exact FileTree.match_file_congr id [] hiff
  · rfl

/-- A directory above the root or below it has the same rules in one project. -/
theorem ofDirectory_eq_of_sameProject {directory : List FileName}
    (hdirectory : directory <+: base ∨ base <+: directory) :
    DirectoryRules.ofDirectory m.files a.config.respectGitignore directory =
      DirectoryRules.ofDirectory t a.config.respectGitignore directory := by
  unfold DirectoryRules.ofDirectory
  simp only [content_eq_of_sameProject h hbase hdirectory]

/-- The rules above the root can be read in both trees of a project or in neither. -/
theorem areSound_eq_of_sameProject :
    (directoriesAbove base).all (DirectoryRules.areSound m.files a.config.respectGitignore) =
      (directoriesAbove base).all (DirectoryRules.areSound t a.config.respectGitignore) := by
  rw [Bool.eq_iff_iff, List.all_eq_true, List.all_eq_true]
  apply forall₂_congr
  intro directory hdirectory
  obtain ⟨k, -, rfl⟩ := List.mem_map.1 hdirectory
  unfold DirectoryRules.areSound
  simp only [content_eq_of_sameProject h hbase (.inl (List.take_prefix k base))]

/-- The same rules are in force above the root. -/
theorem rulesAbove_eq_of_sameProject :
    a.rulesAbove m base = a.rulesAbove { m with files := t } base := by
  apply List.map_congr_left
  intro directory hdirectory
  obtain ⟨k, -, rfl⟩ := List.mem_map.1 hdirectory
  exact ofDirectory_eq_of_sameProject h hbase (.inl (List.take_prefix k base))

/-- The same names pass in both trees of a project. -/
theorem passes_iff_of_sameProject {rules : List DirectoryRules} {names place : List FileName} :
    (a.criteria m base).Passes rules names place ↔
      (a.criteria { m with files := t } base).Passes rules names place := by
  apply Criteria.passes_congr
  · funext rules names isDirectory
    unfold criteria
    rw [globalRules_eq_of_sameProject h]
    rfl
  · intro before n after _
    exact ofDirectory_eq_of_sameProject h hbase (.inr (List.prefix_append base _))

/-! ## What is discovered -/

variable (hproper : m.files.isProper = true) (hproper' : t.isProper = true)

include hproper hproper'

/-- What is listed in one tree of a project is listed in the other. -/
theorem mem_listing_of_sameProject {tree tree' : FileTree} (htree : m.files.at? base = some tree)
    (htree' : t.at? base = some tree') {p : Path} (hp : p ∈ a.listing m base tree) :
    p ∈ a.listing { m with files := t } base tree' := by
  rw [mem_listing_iff hproper htree] at hp
  obtain ⟨names, u, rfl, hu, hfile, hpasses, htakes⟩ := hp
  obtain ⟨v, hv, hdirectory⟩ := h.places.exists_at? hu
  rw [takes, Machine.isFile_eq_of_samePlaces h.places] at htakes
  rw [passes_iff_of_sameProject h hbase, rulesAbove_eq_of_sameProject h hbase] at hpasses
  rw [mem_listing_iff hproper' htree']
  exact ⟨names, v, rfl, hv, hdirectory.trans hfile, hpasses, htakes⟩

/-- The walk lists the same files, maybe in another order. -/
theorem listing_perm (habs : a.root.isAbsolute = true) {tree tree' : FileTree}
    (htree : m.files.at? base = some tree) (htree' : t.at? base = some tree') :
    (a.listing m base tree).Perm (a.listing { m with files := t } base tree') := by
  have hnodup {k : Machine} {u : FileTree} (hk : k.files.isProper = true)
    (hu : k.files.at? base = some u) :
      (a.listing k base u).Nodup := by
    apply (pairwise_listing hk hu habs).imp
    intro p q hne heq
    apply hne
    rw [heq, Path.compare_eq_eq_iff]
  rw [List.perm_ext_iff_of_nodup (hnodup hproper htree) (hnodup hproper' htree')]
  intro p
  constructor
  · exact mem_listing_of_sameProject h hbase hproper hproper' htree htree'
  · have hbase' : t.locate? a.root = some base := (h.places.locate?_eq a.root).symm.trans hbase
    exact mem_listing_of_sameProject (m := { m with files := t }) h.symm hbase' hproper'
      hproper htree' htree

end Rules

/-- **Discovery** answers the same in trees of one project. -/
theorem discover_eq_of_sameProject (habs : a.root.isAbsolute = true)
    (hproper : m.files.isProper = true) (hproper' : t.isProper = true) :
    a.discover m = a.discover { m with files := t } := by
  have hlocate := h.places.locate?_eq a.root
  cases hbase : m.files.locate? a.root with
  | none =>
    unfold discover
    rw [hbase, ← hlocate, hbase]
  | some base =>
    rw [hbase] at hlocate
    obtain ⟨tree, htree⟩ := Option.isSome_iff_exists.1 (FileTree.isSome_at?_of_follow hbase)
    obtain ⟨tree', htree', hdirectory⟩ := h.places.exists_at? htree
    rw [discover_eq hbase htree,
      @discover_eq a { m with files := t } base hlocate.symm tree' htree', hdirectory,
      areSound_eq_of_sameProject h hbase,
      mergeSort_eq_of_perm (listing_perm h hbase hproper hproper' habs htree htree')
        (pairwise_listing hproper htree habs)]

end SameProject

/-! ## Another order of members -/

section SameFiles

variable (h : m.files.SameFiles t)

include h

/-- **Discovery does not depend on how directories list their members.** -/
theorem discover_eq_of_sameFiles (habs : a.root.isAbsolute = true)
    (hproper : m.files.isProper = true) (hproper' : t.isProper = true) :
    a.discover m = a.discover { m with files := t } :=
  discover_eq_of_sameProject (sameProject_of_sameFiles h) habs hproper hproper'

/-- What is found in a file does not either. -/
theorem reportOn_eq_of_sameFiles (file : Path) :
    a.reportOn m file = a.reportOn { m with files := t } file := by
  have hread (p : Path) : m.readText? p = ({ m with files := t } : Machine).readText? p :=
    Machine.readText?_eq_of_samePlaces h.places fun place _ => h.not_differsAt place
  unfold reportOn analyzeFile
  simp only [hread]

end SameFiles

end Analyzer

end ImportLint

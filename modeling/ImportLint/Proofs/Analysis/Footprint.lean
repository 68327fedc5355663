import ImportLint.Proofs.Analysis.Agreement
import ImportLint.Proofs.FileTree.Same

/-!
# What an analysis reads

An analysis asks for places on the way to its root, to the ignore files that count, and to the files
that the walk may come upon and an extractor supports. Two analyses with the same settings have the
same outcome if the trees of their machines are alike at all these places, their paths lead to the
same places there, and the rules of the users ignore the same.
-/

namespace ImportLint

/-- Rules have the same content where the trees are alike at the directory and at the places its
rules ask for. -/
theorem RuleSource.content_eq_of_alikeAt {t u : FileTree} {respectGitignore : Bool}
    {directory : List FileName} {s : RuleSource} (hdirectory : t.AlikeAt u directory)
    (hasks : s.counts respectGitignore = true →
      ∀ place, t.Asks FileTree.maxLinks directory s.file place → t.AlikeAt u place) :
    s.content t respectGitignore directory = s.content u respectGitignore directory := by
  unfold content
  split
  · next hcounts =>
    obtain ⟨hfollow, halike⟩ := FileTree.follow_eq_of_alikeAt hdirectory (hasks hcounts)
    apply FileTree.match_file_congr id []
    intro content
    rw [← hfollow]
    cases hplace : t.follow FileTree.maxLinks directory s.file with
    | none => exact Iff.rfl
    | some place => exact (halike place hplace).at?_eq_some_file_iff
  · rfl

/-- Paths that lead to one place, where the trees are alike, lead to the same file. -/
theorem Machine.resolve?_eq_some_file_iff_of_locate {m k : Machine} {p q : Path}
    (hp : p.isAbsolute = true) (hq : q.isAbsolute = true)
    (h : m.files.locate? p = k.files.locate? q ∧
      ∀ place, m.files.locate? p = some place → m.files.AlikeAt k.files place)
    {content : List UInt8} :
    m.resolve? p = some (.file content) ↔ k.resolve? q = some (.file content) := by
  obtain ⟨hlocate, halike⟩ := h
  rw [resolve?_of_isAbsolute hp, resolve?_of_isAbsolute hq, FileTree.resolve?,
    FileTree.resolve?, ← hlocate]
  cases hplace : m.files.locate? p with
  | none => exact Iff.rfl
  | some place => exact (halike place hplace).at?_eq_some_file_iff

/-- What passes is not inside a repository directory. -/
theorem Criteria.Passes.git_notMem {c : Criteria} {rules : List DirectoryRules}
    {names place : List FileName} (h : c.Passes rules names place) : fileName ".git" ∉ place := by
  intro hmem
  obtain ⟨before, after, rfl⟩ := List.append_of_mem hmem
  have hskips := h before _ after rfl
  rw [skips, List.getLast?_concat] at hskips
  simp at hskips

namespace Analyzer

variable {a b : Analyzer} {m k : Machine} {base names : List FileName}

/-- A place that an analysis **consults for** the kinds of ignore files that count, and for all that
is no ignore file. -/
inductive ConsultsFor (a : Analyzer) (m : Machine) (counts : RuleSource → Bool) :
    List FileName → Prop
  /-- All paths start at the top. -/
  | top : ConsultsFor a m counts []
  | root {place : List FileName}
      (hplace : m.files.Asks FileTree.maxLinks [] a.root.segments place) :
      ConsultsFor a m counts place
  /-- The ignore files of a directory that is on the way to the root, or that the walk may enter. -/
  | ignoreFile {base directory place : List FileName}
      {s : RuleSource} (hbase : m.files.locate? a.root = some base)
      (hdirectory : directory <+: base ∨ ∃ names,
        directory = base ++ names ∧ fileName ".git" ∉ names)
      (hcounts : counts s = true) (hplace : m.files.Asks FileTree.maxLinks directory s.file place) :
      ConsultsFor a m counts place
  /-- A file that the walk may come upon. -/
  | file {base names place : List FileName} (hbase : m.files.locate? a.root = some base)
      (hthere : (m.files.at? (base ++ names)).isSome = true)
      (hsupported : (a.extractorFor? (a.pathAt names)).isSome = true)
      (hgit : fileName ".git" ∉ names)
      (hplace : m.files.Asks FileTree.maxLinks [] (a.pathAt names).segments place) :
        ConsultsFor a m counts place

/-- A place that an analysis **consults**: the ignore files that count are those of its
configuration. -/
def Consults (a : Analyzer) (m : Machine) : List FileName → Prop :=
  a.ConsultsFor m (RuleSource.counts a.config.respectGitignore)

/-- All that is consulted has a name of one of the paths that are followed, if there are no links,
and no directories below the root. -/
theorem ConsultsFor.mem_of_flat {counts : RuleSource → Bool} (hnoLinks : m.files.HasNoLinks)
    (hbase : m.files.locate? a.root = some base) {ms : List (FileName × FileTree)}
    (htree : m.files.at? base = some (.directory ms)) {members all : List FileName}
    (hms : ∀ m ∈ ms, m.2.isDirectory = false ∧ m.1 ∈ members)
    (hrules : ∀ s, counts s = true → s.file ⊆ all) (hroot : a.root.segments ⊆ all)
    (hfiles : ∀ n ∈ members, (a.extractorFor? (a.pathAt [n])).isSome = true →
      (a.pathAt [n]).segments ⊆ all) {place : List FileName} (h : a.ConsultsFor m counts place)
    {n : FileName} (hn : place.getLast? = some n) : n ∈ all := by
  cases h with
  | top => cases hn
  | root hplace => exact hroot (hnoLinks.mem_of_asks hplace hn)
  | ignoreFile _ _ hcounts hplace => exact hrules _ hcounts (hnoLinks.mem_of_asks hplace hn)
  | file hbase' hthere hsupported _ hplace =>
    obtain rfl := Option.some.inj (hbase.symm.trans hbase')
    obtain ⟨u, hu⟩ := Option.isSome_iff_exists.1 hthere
    rw [FileTree.at?_append, htree, Option.bind_some] at hu
    rcases FileTree.eq_nil_or_mem_of_at? (fun m hm => (hms m hm).1) hu with rfl | ⟨k, rfl, hmem⟩
    · exact hroot (hnoLinks.mem_of_asks hplace hn)
    · exact hfiles k (hms _ hmem).2 hsupported (hnoLinks.mem_of_asks hplace hn)

/-- The paths of one analysis **lead as** those of another do: to the same place, if the trees are
alike at the places that they ask for. -/
def LeadsAs (a b : Analyzer) (m k : Machine) : Prop :=
  ∀ names, (∀ place, m.files.Asks FileTree.maxLinks [] (a.pathAt names).segments place ∨
      k.files.Asks FileTree.maxLinks [] (b.pathAt names).segments place →
        m.files.AlikeAt k.files place) →
    m.files.locate? (a.pathAt names) = k.files.locate? (b.pathAt names) ∧
      ∀ place, m.files.locate? (a.pathAt names) = some place → m.files.AlikeAt k.files place

/-- The rules of the **user ignore** what names lead to below the root. -/
def UserIgnores (a : Analyzer) (m : Machine) (names : List FileName) (isDirectory : Bool) : Prop :=
  Ignore.verdict? m.globalRules isDirectory ((a.criteria m []).globalPath names) = some .ignored

/-- Analyses **read alike**: they have the same settings, and neither can tell what the machines do
not share. -/
structure ReadAlike (a b : Analyzer) (m k : Machine) : Prop where
  settings : a.SameSettings b
  alike : ∀ place, a.Consults m place ∨ b.Consults k place → m.files.AlikeAt k.files place
  leads : a.LeadsAs b m k
  /-- A root that is a file is one for the same extractor. -/
  extension : ∀ base u, m.files.locate? a.root = some base → m.files.at? base = some u →
    u.isDirectory = false →
    extensionOf? a.root = extensionOf? b.root
  user : ∀ names isDirectory, a.UserIgnores m names isDirectory ↔ b.UserIgnores k names isDirectory

/-- The names on the way make the same extension below any root. -/
theorem extensionOf?_pathAt (habs : a.root.isAbsolute = true) (hne : names ≠ [])
    (hnames : ∀ n ∈ names, isProperName n = true) :
    extensionOf? (a.pathAt names) = extensionOf? (pathOfNames names) := by
  have hcomponents : (a.pathAt names).components = a.root.components ++
      (pathOfNames names).components := by
    rw [components_pathAt habs hnames, Path.components_pathOfNames hnames]
  have hne' : (pathOfNames names).components ≠ [] := by
    simpa [Path.components_pathOfNames hnames] using hne
  rw [extensionOf?, extensionOf?, Path.extension?_eq_of_components hcomponents hne']

namespace ReadAlike

variable (h : ReadAlike a b m k)

include h

/-! ## The place of the root -/

/-- Both roots lead to the same place, where the trees are alike. -/
theorem root : m.files.locate? a.root = k.files.locate? b.root ∧
    ∀ place, m.files.locate? a.root = some place → m.files.AlikeAt k.files place :=
  h.leads [] fun place hplace => h.alike place (hplace.imp .root .root)

/-- Reading alike is symmetric. -/
theorem symm : ReadAlike b a k m where
  settings := h.settings.symm
  alike place hplace := (h.alike place hplace.symm).symm
  leads names hasks := by
    obtain ⟨hlocate, halike⟩ := h.leads names fun place hplace => (hasks place hplace.symm).symm
    refine ⟨hlocate.symm, fun place hplace => (halike place ?_).symm⟩
    rw [hlocate, hplace]
  extension base u hbase hu hfile := by
    have hbase' := h.root.1.trans hbase
    obtain ⟨v, hv, hdirectory⟩ := (h.root.2 base hbase').symm.kind.exists_at? hu
    exact (h.extension base v hbase' hv (hdirectory.trans hfile)).symm
  user names isDirectory := (h.user names isDirectory).symm

section

variable (hbase : m.files.locate? a.root = some base)

include hbase

/-! ## What decides on the walk -/

/-- A directory that is walked, or that lies above, has rules of the same content on both machines.
-/
theorem content_eq {directory : List FileName} (hdirectory : m.files.AlikeAt k.files directory)
    (hwalked : directory <+: base ∨ ∃ names, directory = base ++ names ∧ fileName ".git" ∉ names)
    (s : RuleSource) : s.content m.files a.config.respectGitignore directory =
      s.content k.files b.config.respectGitignore directory := by
  rw [← h.settings.config]
  apply RuleSource.content_eq_of_alikeAt hdirectory
  intro hcounts place hplace
  exact h.alike place (.inl (.ignoreFile hbase hwalked hcounts hplace))

/-- A directory that is walked, or that lies above, has the same rules on both machines. -/
theorem ofDirectory_eq {directory : List FileName} (hdirectory : m.files.AlikeAt k.files directory)
    (hwalked : directory <+: base ∨ ∃ names, directory = base ++ names ∧ fileName ".git" ∉ names) :
    DirectoryRules.ofDirectory m.files a.config.respectGitignore directory =
      DirectoryRules.ofDirectory k.files b.config.respectGitignore directory := by
  unfold DirectoryRules.ofDirectory
  simp only [content_eq h hbase hdirectory hwalked]

/-- On the way to the root the trees are alike. -/
theorem alikeAt_take (n : ℕ) : m.files.AlikeAt k.files (base.take n) := by
  obtain ⟨tree, htree⟩ := Option.isSome_iff_exists.1 (FileTree.isSome_at?_of_follow hbase)
  have hroot := h.root.2 base hbase
  rw [← List.take_append_drop n base] at htree hroot
  exact hroot.of_append htree

/-- The same rules are in force above the root. -/
theorem rulesAbove_eq : a.rulesAbove m base = b.rulesAbove k base := by
  apply List.map_congr_left
  intro directory hdirectory
  obtain ⟨n, -, rfl⟩ := List.mem_map.1 hdirectory
  exact ofDirectory_eq h hbase (alikeAt_take h hbase n) (.inl (List.take_prefix n base))

/-- The rules above the root can be read on both machines or on neither. -/
theorem areSound_eq :
    (directoriesAbove base).all (DirectoryRules.areSound m.files a.config.respectGitignore) =
      (directoriesAbove base).all (DirectoryRules.areSound k.files b.config.respectGitignore) := by
  rw [Bool.eq_iff_iff, List.all_eq_true, List.all_eq_true]
  apply forall₂_congr
  intro directory hdirectory
  obtain ⟨n, -, rfl⟩ := List.mem_map.1 hdirectory
  unfold DirectoryRules.areSound
  simp only [content_eq h hbase (alikeAt_take h hbase n) (.inl (List.take_prefix n base))]

omit hbase in
/-- By the same rules of directories, the walks pass over the same. -/
theorem skips_eq : (a.criteria m base).skips = (b.criteria k base).skips := by
  funext rules names isDirectory
  have hverdict : ((a.criteria m base).verdict? rules names isDirectory == some .ignored) =
      ((b.criteria k base).verdict? rules names isDirectory == some .ignored) := by
    rw [Bool.eq_iff_iff, beq_iff_eq, beq_iff_eq]
    -- The rules of the user decide only where no directory's rules do.
    unfold Criteria.verdict?
    simp only [criteria]
    cases RuleSource.all.findSome? fun s =>
        rules.findSome? (DirectoryRules.verdict? s (base ++ names) isDirectory) with
    | none => exact h.user names isDirectory
    | some v => exact Iff.rfl
  unfold Criteria.skips
  rw [hverdict]
  simp only [criteria, h.settings.exclude]

/-- The same names pass on both machines. -/
theorem passes_iff {u : FileTree} (hu : m.files.at? (base ++ names) = some u)
    (halike : m.files.AlikeAt k.files (base ++ names)) (hgit : fileName ".git" ∉ names) :
    (a.criteria m base).Passes (a.rulesAbove m base) [] names ↔
      (b.criteria k base).Passes (b.rulesAbove k base) [] names := by
  rw [rulesAbove_eq h hbase]
  -- The rules of a directory on the way count as well.
  apply Criteria.passes_congr (skips_eq h)
  rintro before n after rfl
  rw [← List.append_assoc] at hu halike
  refine ofDirectory_eq h hbase (halike.of_append hu) (.inr ⟨before, rfl, ?_⟩)
  exact fun hmem => hgit (List.mem_append_left _ hmem)

/-! ## What is listed -/

variable (habs : a.root.isAbsolute = true) (habs' : b.root.isAbsolute = true)
  (hproper : m.files.isProper = true)

include habs habs' hproper

/-- What is listed has the same extension below both roots. -/
theorem extension_eq (hlists : a.Lists m base names) :
    extensionOf? (a.pathAt names) = extensionOf? (b.pathAt names) := by
  by_cases hne : names = []
  · subst hne
    obtain ⟨u, hu, hfile⟩ := hlists.there
    rw [List.append_nil] at hu
    exact h.extension base u hbase hu hfile
  · have hnames := hlists.proper hproper
    rw [extensionOf?_pathAt habs hne hnames, extensionOf?_pathAt habs' hne hnames]

omit habs habs' in
/-- There is something in both trees where one analysis lists a file. -/
theorem alikeAt_of_lists (hlists : a.Lists m base names) :
    m.files.AlikeAt k.files (base ++ names) := by
  by_cases hne : names = []
  · rw [hne, List.append_nil]
    exact h.root.2 base hbase
  · obtain ⟨u, hu, -⟩ := hlists.there
    have hthere : (m.files.at? (base ++ names)).isSome = true := Option.isSome_iff_exists.2 ⟨u, hu⟩
    have hsupported := (Bool.and_eq_true_iff.1 hlists.takes).2
    apply h.alike _ (.inl (.file hbase hthere hsupported hlists.passes.git_notMem ?_))
    rw [pathAt, if_neg (by simpa using hne)]
    exact FileTree.asks_join hbase hne (hlists.proper hproper) hu

/-- The paths of what is listed ask for nothing where the trees are not alike. -/
theorem alikeAt_of_asks (hlists : a.Lists m base names) {place : List FileName}
    (hplace : m.files.Asks FileTree.maxLinks [] (a.pathAt names).segments place ∨
      k.files.Asks FileTree.maxLinks [] (b.pathAt names).segments place) :
        m.files.AlikeAt k.files place := by
  have hsupported := (Bool.and_eq_true_iff.1 hlists.takes).2
  obtain ⟨u, hu, -⟩ := hlists.there
  have hthere : (m.files.at? (base ++ names)).isSome = true := Option.isSome_iff_exists.2 ⟨u, hu⟩
  rcases hplace with hplace | hplace
  · exact h.alike place (.inl (.file hbase hthere hsupported hlists.passes.git_notMem hplace))
  · -- The other analysis consults the place too, if the same names lead to a supported file there.
    have hbase' := h.root.1.symm.trans hbase
    rw [(alikeAt_of_lists h hbase hproper hlists).kind.isSome_at?] at hthere
    rw [h.settings.extractorFor?_eq (extension_eq h hbase habs habs' hproper hlists)] at hsupported
    exact h.alike place (.inr (.file hbase' hthere hsupported hlists.passes.git_notMem hplace))

/-- The path of what is listed leads to the same. -/
theorem resolve?_eq_some_file_iff (hlists : a.Lists m base names) {content : List UInt8} :
    m.resolve? (a.pathAt names) = some (.file content) ↔
      k.resolve? (b.pathAt names) = some (.file content) := by
  exact Machine.resolve?_eq_some_file_iff_of_locate (isAbsolute_pathAt habs)
    (isAbsolute_pathAt habs')
    (h.leads names fun place => alikeAt_of_asks h hbase habs habs' hproper hlists)

/-- What one analysis lists the other lists too. -/
theorem lists (hlists : a.Lists m base names) : b.Lists k base names := by
  obtain ⟨u, hu, hfile⟩ := hlists.there
  have halike := alikeAt_of_lists h hbase hproper hlists
  obtain ⟨v, hv, hdirectory⟩ := halike.kind.exists_at? hu
  obtain ⟨hisFile, hsupported⟩ := Bool.and_eq_true_iff.1 hlists.takes
  refine ⟨⟨v, hv, hdirectory.trans hfile⟩, ?_, Bool.and_eq_true_iff.2 ⟨?_, ?_⟩⟩
  · exact (passes_iff h hbase hu halike hlists.passes.git_notMem).1 hlists.passes
  · obtain ⟨content, hcontent⟩ := Machine.isFile_iff.1 hisFile
    exact Machine.isFile_iff.2 ⟨content,
      (resolve?_eq_some_file_iff h hbase habs habs' hproper hlists).1 hcontent⟩
  · rwa [← h.settings.extractorFor?_eq (extension_eq h hbase habs habs' hproper hlists)]

/-- What is listed is read as the same text. -/
theorem readText?_eq (hlists : a.Lists m base names) :
    m.readText? (a.pathAt names) = k.readText? (b.pathAt names) := by
  have hpath : (a.pathAt names).isAbsolute = true := isAbsolute_pathAt habs
  have hpath' : (b.pathAt names).isAbsolute = true := isAbsolute_pathAt habs'
  have hread : m.files.read? (a.pathAt names) = k.files.read? (b.pathAt names) := by
    ext content
    rw [FileTree.read?_eq_some_iff, FileTree.read?_eq_some_iff,
      ← Machine.resolve?_of_isAbsolute hpath, ← Machine.resolve?_of_isAbsolute hpath',
      resolve?_eq_some_file_iff h hbase habs habs' hproper hlists]
  rw [Machine.readText?_of_isAbsolute hpath,
    Machine.readText?_of_isAbsolute hpath', FileTree.readText?, FileTree.readText?, hread]

end

/-! ## The outcome -/

section

variable (habs : a.root.isAbsolute = true) (habs' : b.root.isAbsolute = true)
  (hproper : m.files.isProper = true) (hproper' : k.files.isProper = true)

include habs habs' hproper hproper'

/-- Analyses that read alike agree on what they list and read below the root. -/
theorem agrees (hbase : m.files.locate? a.root = some base) : Agrees a b m k base where
  settings := h.settings
  root := hbase
  root' := h.root.1.symm.trans hbase
  lists _ :=
    ⟨h.lists hbase habs habs' hproper, h.symm.lists (h.root.1.symm.trans hbase) habs' habs hproper'⟩
  extension _ := h.extension_eq hbase habs habs' hproper
  text _ := h.readText?_eq hbase habs habs' hproper

omit habs habs' hproper hproper' in
/-- Discovery fails for both analyses or for neither. -/
theorem discover_eq_error_iff (hbase : m.files.locate? a.root = some base) :
    a.discover m = .error .unwalkable ↔ b.discover k = .error .unwalkable := by
  obtain ⟨tree, htree⟩ := Option.isSome_iff_exists.1 (FileTree.isSome_at?_of_follow hbase)
  obtain ⟨tree', htree', hdirectory⟩ := (h.root.2 base hbase).kind.exists_at? htree
  rw [discover_eq hbase htree, discover_eq (h.root.1.symm.trans hbase) htree', hdirectory,
    h.areSound_eq hbase]
  split <;> simp

/-- **Analyses that read alike** have the same outcome. -/
theorem analyze_eq : a.analyze m = b.analyze k := by
  cases hbase : m.files.locate? a.root with
  | none =>
    have hfiles : a.discover m = .error .unwalkable := by rw [discover, hbase]
    have hfiles' : b.discover k = .error .unwalkable := by rw [discover, ← h.root.1, hbase]
    rw [analyze, analyze, hfiles, hfiles']
    rfl
  | some base =>
    have hagrees := h.agrees habs habs' hproper hproper' hbase
    exact hagrees.outcome_eq habs habs' hproper hproper' (h.discover_eq_error_iff hbase)

end

end ReadAlike

end Analyzer

end ImportLint

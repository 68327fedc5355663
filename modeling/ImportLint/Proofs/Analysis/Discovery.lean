import ImportLint.Proofs.Analysis.Listing
import ImportLint.Proofs.Glob.Search
import Mathlib.Data.List.Permutation

/-!
# Discovery without ignore files

Where there are no ignore files, the walk passes over what is called `.git` and what is excluded,
and over nothing else. The files that are discovered can then be told from the tree alone: those
that an extractor supports and that have no such name or directory on the way from the root.
-/

namespace ImportLint

/-! ## Ignore files that are missing -/

/-- There are **no ignore files** for what is at a place or below: not in the directories above it,
not in those below, and not with the user. Something else may have the name of an ignore file, such
as a directory. -/
structure Machine.HasNoIgnoreFiles (m : Machine) (base : List FileName) : Prop where
  /-- No directory on the way to the place or below it has an ignore file. -/
  directories : ∀ directory, directory <+: base ∨ base <+: directory → ∀ (s : RuleSource) content,
    (m.files.follow FileTree.maxLinks directory s.file).bind (m.files.at? ·) ≠ some (.file content)
  /-- The user has no ignore file. -/
  user : ∀ content, m.globalIgnoreFile?.bind m.resolve? ≠ some (.file content)

/-- Where no name is that of an ignore file, or of a directory on the way to one, no ignore file is
found. -/
theorem RuleSource.follow_eq_none_of_allNames {files : FileTree} {s : RuleSource}
    (h : files.allNames (!s.file.contains ·) = true) (directory : List FileName) :
    files.follow FileTree.maxLinks directory s.file = none := by
  by_cases hms : ∃ ms, files.at? directory = some (.directory ms)
  · obtain ⟨ms, hms⟩ := hms
    obtain ⟨n, rest, hfile, hidle, habove⟩ : ∃ n rest, s.file = n :: rest ∧
        ¬ Path.isIdle n = true ∧ ¬ (n == FileTree.above) = true := by
      cases s <;> exact ⟨_, _, rfl, by decide +kernel, by decide +kernel⟩
    have hnames := FileTree.allNames_at? h hms
    rw [FileTree.allNames, FileTree.allMembers_iff] at hnames
    have hfind : FileTree.find? n ms = none := by
      rw [FileTree.find?, Option.map_eq_none_iff, List.find?_eq_none]
      intro m hm heq
      have htest := (hnames m hm).1
      rw [eq_of_beq heq, hfile] at htest
      simp at htest
    rw [hfile, FileTree.follow_cons_missing hms hidle habove hfind]
  · exact RuleSource.follow_eq_none (fun ms h => hms ⟨ms, h⟩) s

/-- Names tell that there are no ignore files. -/
theorem Machine.hasNoIgnoreFiles_of_allNames {m : Machine}
    (h : ∀ s : RuleSource, m.files.allNames (!s.file.contains ·) = true)
    (huser : m.globalIgnoreFile? = none) (base : List FileName) : m.HasNoIgnoreFiles base where
  directories directory _ s content := by
    rw [RuleSource.follow_eq_none_of_allNames (h s)]
    exact Option.some_ne_none _ ∘ Eq.symm
  user content := by
    rw [huser]
    exact Option.some_ne_none _ ∘ Eq.symm

/-- No text has no rules, and so no unsound ones. -/
theorem Ignore.ruleLines_nil : ruleLines [] = [] := by
  decide +kernel

/-- Where there is no ignore file, it has no content. -/
theorem RuleSource.content_eq_nil {files : FileTree} {respectGitignore : Bool}
    {directory : List FileName} {s : RuleSource} (h : ∀ content,
      (files.follow FileTree.maxLinks directory s.file).bind (files.at? ·) ≠ some (.file content)) :
    s.content files respectGitignore directory = [] := by
  unfold content
  split
  · split
    · next content hcontent => exact absurd hcontent (h content)
    · rfl
  · rfl

namespace DirectoryRules

/-- Whether there are rules of no kind. -/
def IsEmpty (d : DirectoryRules) : Prop := ∀ s, d.ofSource s = []

section

variable {files : FileTree} {respectGitignore : Bool} {directory : List FileName}
  (h : ∀ (s : RuleSource) content,
    (files.follow FileTree.maxLinks directory s.file).bind (files.at? ·) ≠ some (.file content))

include h

/-- Where there are no ignore files, there are no rules. -/
theorem isEmpty_ofDirectory : (ofDirectory files respectGitignore directory).IsEmpty := by
  intro s
  have hrules : Ignore.rulesOf (s.content files respectGitignore directory) = [] := by
    rw [RuleSource.content_eq_nil (h s), Ignore.rulesOf, Ignore.ruleLines_nil, List.filterMap_nil]
  cases s <;> exact hrules

/-- Where there are no ignore files, none has a line that is unsound. -/
theorem areSound_of_no_file : areSound files respectGitignore directory = true := by
  refine List.all_eq_true.2 fun s _ => ?_
  rw [RuleSource.content_eq_nil (h s), Ignore.isSound, Ignore.ruleLines_nil, List.all_nil]

end

/-- Empty rules give no verdict. -/
theorem IsEmpty.verdict?_eq_none {d : DirectoryRules} (h : d.IsEmpty) (s : RuleSource)
    (place : List FileName) (isDirectory : Bool) : d.verdict? s place isDirectory = none := by
  rw [verdict?, h s]
  rfl

end DirectoryRules

/-- Without ignore files the user has no rules. -/
theorem Machine.HasNoIgnoreFiles.globalRules_eq_nil {m : Machine} {base : List FileName}
    (h : m.HasNoIgnoreFiles base) : m.globalRules = [] := by
  unfold globalRules
  split
  · next content hcontent => exact absurd hcontent (h.user content)
  · rfl

namespace Criteria

variable {c : Criteria} {rules : List DirectoryRules} {names place : List FileName}

/-- Without rules, what is passed over is called `.git` or excluded. -/
theorem skips_of_isEmpty (hglobal : c.global = []) (hrules : ∀ d ∈ rules, d.IsEmpty)
    (isDirectory : Bool) :
    c.skips rules names isDirectory = (names.getLast? == some (fileName ".git") ||
      isExcluded c.exclude (pathOfNames names).normalize isDirectory) := by
  have hnone : c.verdict? rules names isDirectory = none := by
    have hsource : RuleSource.all.findSome? (fun s =>
        rules.findSome? (DirectoryRules.verdict? s (c.base ++ names) isDirectory)) = none :=
      List.findSome?_eq_none_iff.2 fun s _ => List.findSome?_eq_none_iff.2 fun d hd =>
        (hrules d hd).verdict?_eq_none s _ isDirectory
    rw [verdict?, hsource, hglobal]
    rfl
  rw [skips, hnone]
  rfl

/-- Below rules that are empty only empty ones are in force, if each directory on the way has such.
-/
theorem isEmpty_of_mem_rulesBelow (hrules : ∀ d ∈ rules, d.IsEmpty)
    (hat : ∀ rest, (c.rulesAt (names ++ rest)).IsEmpty) :
    ∀ d ∈ c.rulesBelow rules names place, d.IsEmpty := by
  induction place generalizing rules names with
  | nil =>
    rw [rulesBelow]
    have hnames : (c.rulesAt names).IsEmpty := by simpa using hat []
    exact List.forall_mem_cons.2 ⟨hnames, hrules⟩
  | cons n ns ih =>
    have hnames : (c.rulesAt names).IsEmpty := by simpa using hat []
    rw [rulesBelow]
    refine ih (List.forall_mem_cons.2 ⟨hnames, hrules⟩) fun rest => ?_
    rw [List.append_assoc]
    exact hat _

end Criteria

/-! ## The files of a tree -/

namespace FileTree

mutual

/-- The places of all files in a tree. -/
def filePlaces : FileTree → List (List FileName)
  | file _ => [[]]
  | link _ => []
  | directory ms => filePlacesIn ms

/-- The places of all files that are members or are in their trees. -/
def filePlacesIn : List (FileName × FileTree) → List (List FileName)
  | [] => []
  | (n, t) :: ms => (filePlaces t).map (n :: ·) ++ filePlacesIn ms

end

/-- A place of a file among members starts with the name of one. -/
theorem mem_filePlacesIn_iff {ms : List (FileName × FileTree)} {place : List FileName} :
    place ∈ filePlacesIn ms ↔ ∃ m ∈ ms, ∃ rest ∈ m.2.filePlaces, place = m.1 :: rest := by
  induction ms with
  | nil => simp [filePlacesIn]
  | cons m ms ih => simp [filePlacesIn, ih, eq_comm]

/-- The places of all files are those that a file is at. -/
theorem mem_filePlaces_iff {t : FileTree} (ht : t.isProper = true) {place : List FileName} :
    place ∈ t.filePlaces ↔ ∃ content, t.at? place = some (.file content) := by
  -- By induction on the tree. In a directory a place starts with the name of a member.
  induction t using rec_members generalizing place with
  | file content => cases place <;> simp [filePlaces, at?]
  | link target => cases place <;> simp [filePlaces, at?]
  | directory ms ih =>
    obtain ⟨hnodup, hmembers⟩ := isProper_directory_iff.1 ht
    rw [filePlaces, mem_filePlacesIn_iff]
    constructor
    · rintro ⟨⟨n, u⟩, hm, rest, hrest, rfl⟩
      obtain ⟨content, hat⟩ := (ih _ hm (hmembers _ hm).2).1 hrest
      exact ⟨content, at?_cons_eq_some_iff.2 ⟨ms, u, rfl, (find?_eq_some_iff hnodup).2 hm, hat⟩⟩
    · rintro ⟨content, hat⟩
      cases place with
      | nil => cases hat
      | cons n rest =>
        obtain ⟨ks, u, hks, hfind, hu⟩ := at?_cons_eq_some_iff.1 hat
        obtain rfl := directory.inj hks
        have hm : (n, u) ∈ ms := mem_of_find? hfind
        exact ⟨(n, u), hm, rest, (ih _ hm (hmembers _ hm).2).2 ⟨content, hu⟩, rfl⟩

end FileTree

/-! ## The files that are found -/

namespace Analyzer

/-- A place below the root that is **included**: neither its name nor that of a directory on the way
from the root is `.git`, and neither is excluded. -/
def Includes (a : Analyzer) (names : List FileName) : Prop :=
  ∀ before n after, names = before ++ n :: after → n ≠ fileName ".git" ∧
    isExcluded a.exclude (pathOfNames (before ++ [n])).normalize (!after.isEmpty) = false

/-- What is to be discovered below the root, which is at a place: a file or a link to one, with an
extension that an extractor supports, that is included. -/
structure Finds (a : Analyzer) (m : Machine) (base names : List FileName) : Prop where
  file : (∃ content, m.files.at? (base ++ names) = some (.file content)) ∨
    (∃ target, m.files.at? (base ++ names) = some (.link target)) ∧
      m.isFile (a.root / pathOfNames names) = true
  supported : ∃ e, extensionOf? (a.root / pathOfNames names) = some e ∧
    ∃ x ∈ a.extractors, e ∈ x.extensions
  included : a.Includes names

variable {a : Analyzer} {m : Machine}

/-- A file is supported exactly if its extension is one of an extractor. -/
theorem isSome_extractorFor?_iff {p : Path} : (a.extractorFor? p).isSome = true ↔
    ∃ e, extensionOf? p = some e ∧ ∃ x ∈ a.extractors, e ∈ x.extensions := by
  cases h : extensionOf? p with
  | none => simp [extractorFor?, h]
  | some e => simp [extractorFor?, h, Extractor.supports]

/-- What is included directly below the root is told by its name. -/
theorem includes_singleton_iff {n : FileName} : a.Includes [n] ↔
    n ≠ fileName ".git" ∧ isExcluded a.exclude (pathOfNames [n]).normalize false = false := by
  constructor
  · intro h
    exact h [] n [] rfl
  · rintro h before k after hsplit
    obtain ⟨rfl, rfl, rfl⟩ : before = [] ∧ k = n ∧ after = [] := by
      cases before <;> simp_all
    exact h

/-- Without excludes, only a name that is `.git` leaves something out. -/
theorem includes_of_not_mem (hexclude : a.exclude = []) {names : List FileName}
    (hgit : fileName ".git" ∉ names) : a.Includes names := by
  rintro before n after rfl
  rw [isExcluded, hexclude, List.any_nil, Bool.and_false]
  refine ⟨?_, rfl⟩
  rintro rfl
  simp at hgit

/-- What is found is at its place, and is no directory. -/
theorem Finds.exists_at? {base names : List FileName} (h : a.Finds m base names) :
    ∃ u, m.files.at? (base ++ names) = some u ∧ u.isDirectory = false := by
  rcases h.file with ⟨content, hu⟩ | ⟨⟨target, hu⟩, -⟩
  · exact ⟨_, hu, rfl⟩
  · exact ⟨_, hu, rfl⟩

section Directory

variable {base : List FileName} {ms : List (FileName × FileTree)}
  (habs : a.root.isAbsolute = true) (hbase : m.files.locate? a.root = some base)
  (htree : m.files.at? base = some (.directory ms)) (hproper : m.files.isProper = true)

include habs hbase hproper in
/-- The path of a file below the root leads to it. -/
theorem isFile_join {names : List FileName} (hne : names ≠ []) {content : List UInt8}
    (h : m.files.at? (base ++ names) = some (.file content)) :
    m.isFile (a.root / pathOfNames names) = true := by
  have hnames : ∀ n ∈ names, isProperName n = true := by
    intro n hn
    exact (FileTree.isProper_of_at? hproper h).2 n (List.mem_append_right base hn)
  have hlocate := FileTree.locate?_join hbase hne hnames h (by simp)
  have hjoined : (a.root / pathOfNames names).isAbsolute = true := Path.isAbsolute_join habs _
  rw [Machine.isFile, Machine.resolve?_of_isAbsolute hjoined, FileTree.resolve?, hlocate,
    Option.bind_some, h]

variable (hignore : m.HasNoIgnoreFiles base)

include hignore in
/-- Without ignore files, the walk passes by the names and the excludes alone. -/
theorem passes_iff_includes {names : List FileName} :
    (a.criteria m base).Passes (a.rulesAbove m base) [] names ↔ a.Includes names := by
  have habove : ∀ d ∈ a.rulesAbove m base, d.IsEmpty := by
    intro d hd
    obtain ⟨directory, hdirectory, rfl⟩ := List.mem_map.1 hd
    obtain ⟨k, -, rfl⟩ := List.mem_map.1 hdirectory
    exact DirectoryRules.isEmpty_ofDirectory
      (hignore.directories _ (.inl (List.take_prefix k base)))
  have hat (rest : List FileName) : ((a.criteria m base).rulesAt ([] ++ rest)).IsEmpty :=
    DirectoryRules.isEmpty_ofDirectory (hignore.directories _ (.inr (List.prefix_append base _)))
  -- All rules are empty, so the name and the excludes decide alone.
  have hskips (before : List FileName) (n : FileName) (isDirectory : Bool) :
      (a.criteria m base).skips ((a.criteria m base).rulesBelow (a.rulesAbove m base) [] before)
        ([] ++ before ++ [n]) isDirectory = false ↔
        n ≠ fileName ".git" ∧
          isExcluded a.exclude (pathOfNames (before ++ [n])).normalize isDirectory = false := by
    rw [Criteria.skips_of_isEmpty hignore.globalRules_eq_nil
      (Criteria.isEmpty_of_mem_rulesBelow habove hat), Bool.or_eq_false_iff, List.nil_append,
      List.getLast?_concat]
    simp [criteria]
  simp only [Criteria.Passes, hskips]
  rfl

include habs hbase htree hproper hignore in
/-- What the walk lists is what is to be discovered. -/
theorem mem_listing_iff_finds {p : Path} : p ∈ a.listing m base (.directory ms) ↔
    ∃ names, p = a.root / pathOfNames names ∧ a.Finds m base names := by
  rw [mem_listing_iff hproper htree]
  simp only [passes_iff_includes hignore, takes, Bool.and_eq_true, isSome_extractorFor?_iff]
  -- The root is a directory, so a file below it has a name.
  have hpath {names : List FileName} {u : FileTree} (hu : m.files.at? (base ++ names) = some u)
      (hfile : u.isDirectory = false) : names ≠ [] ∧
        a.pathAt names = a.root / pathOfNames names := by
    have hne : names ≠ [] := by
      rintro rfl
      rw [List.append_nil, htree] at hu
      obtain rfl := Option.some.inj hu
      cases hfile
    exact ⟨hne, by rw [pathAt, if_neg (by simpa using hne)]⟩
  constructor
  · rintro ⟨names, u, rfl, hu, hfile, hincluded, hisFile, hsupported⟩
    rw [(hpath hu hfile).2] at hisFile hsupported ⊢
    refine ⟨names, rfl, ?_, hsupported, hincluded⟩
    cases u with
    | file content => exact .inl ⟨content, hu⟩
    | link target => exact .inr ⟨⟨target, hu⟩, hisFile⟩
    | directory _ => cases hfile
  · rintro ⟨names, rfl, hfile, hsupported, hincluded⟩
    rcases hfile with ⟨content, hu⟩ | ⟨⟨target, hu⟩, hisFile⟩
    · obtain ⟨hne, hpathAt⟩ := hpath hu rfl
      refine ⟨names, _, hpathAt.symm, hu, rfl, hincluded, ?_, hsupported⟩
      exact isFile_join habs hbase hproper hne hu
    · obtain ⟨-, hpathAt⟩ := hpath hu rfl
      exact ⟨names, _, hpathAt.symm, hu, rfl, hincluded, hisFile, hsupported⟩

include hbase htree hignore in
/-- Discovery does not fail where there are no ignore files. -/
theorem discover_eq_ok :
    a.discover m = .ok ((a.listing m base (.directory ms)).mergeSort inOrder) := by
  have hsound : (directoriesAbove base).all
      (DirectoryRules.areSound m.files a.config.respectGitignore) = true := by
    refine List.all_eq_true.2 fun directory hdirectory => ?_
    obtain ⟨k, -, rfl⟩ := List.mem_map.1 hdirectory
    exact DirectoryRules.areSound_of_no_file
      (hignore.directories _ (.inl (List.take_prefix k base)))
  rw [discover_eq hbase htree, hsound, Bool.not_true, Bool.and_false, if_neg Bool.false_ne_true]

include habs hbase htree hproper hignore in
/-- What is discovered is what the analyzer finds. -/
theorem mem_iff_of_discover {files : List Path} (h : a.discover m = .ok files) {p : Path} :
    p ∈ files ↔ ∃ names, p = a.root / pathOfNames names ∧ a.Finds m base names := by
  rw [discover_eq_ok hbase htree hignore] at h
  obtain rfl := Except.ok.inj h
  rw [List.mem_mergeSort, mem_listing_iff_finds habs hbase htree hproper hignore]

include habs hbase htree hproper hignore in
/-- What is to be discovered, in the order of the paths, is what is discovered. -/
theorem discover_eq_of_finds {files : List Path}
    (hsorted : files.Pairwise fun p q => p.compare q = .lt)
    (hmem : ∀ p, p ∈ files ↔ ∃ names, p = a.root / pathOfNames names ∧ a.Finds m base names) :
    a.discover m = .ok files := by
  have h := discover_eq_ok (a := a) hbase htree hignore
  rw [h]
  refine congrArg Except.ok
    (eq_of_pairwise_lt (f := id) (pairwise_lt_of_discover habs hproper h) hsorted fun p => ?_)
  rw [mem_iff_of_discover habs hbase htree hproper hignore h, hmem]

include habs hbase htree hproper hignore in
/-- Without links and excludes, the supported files are discovered that no name on the way hides. -/
theorem discover_eq_of_filePlaces (hexclude : a.exclude = []) (hlinks : m.files.HasNoLinks)
    {places : List (List FileName)} {files : List Path}
    (hplaces : (FileTree.directory ms).filePlaces = places)
    (hgit : ∀ names ∈ places, fileName ".git" ∉ names)
    (hfiles : files.Perm ((places.map fun names => a.root / pathOfNames names).filter fun p =>
      (a.extractorFor? p).isSome))
    (hsorted : files.Pairwise fun p q => p.compare q = .lt) : a.discover m = .ok files := by
  subst hplaces
  have hplaces {names : List FileName} : names ∈ (FileTree.directory ms).filePlaces ↔
      ∃ content, m.files.at? (base ++ names) = some (.file content) := by
    rw [FileTree.mem_filePlaces_iff (FileTree.isProper_of_at? hproper htree).1,
      FileTree.at?_append, htree]
    rfl
  refine discover_eq_of_finds habs hbase htree hproper hignore hsorted fun p => ?_
  rw [hfiles.mem_iff, List.mem_filter, List.mem_map]
  constructor
  · rintro ⟨⟨names, hnames, rfl⟩, hsupported⟩
    exact ⟨names, rfl, .inl (hplaces.1 hnames), isSome_extractorFor?_iff.1 hsupported,
      includes_of_not_mem hexclude (hgit names hnames)⟩
  · rintro ⟨names, rfl, hfile, hsupported, -⟩
    rcases hfile with hcontent | ⟨⟨target, htarget⟩, -⟩
    · exact ⟨⟨names, hplaces.2 hcontent, rfl⟩, isSome_extractorFor?_iff.2 hsupported⟩
    · exact absurd htarget (hlinks _ _)

include habs htree hproper in
/-- The path of what is found says by which names it is. -/
theorem Finds.components_join {names : List FileName} (h : a.Finds m base names) :
    (a.root / pathOfNames names).components = a.root.components ++ names.map .named := by
  obtain ⟨u, hu, hfile⟩ := h.exists_at?
  refine Path.components_join habs ?_ fun n hn => ?_
  · rintro rfl
    rw [List.append_nil, htree] at hu
    obtain rfl := Option.some.inj hu
    cases hfile
  · exact (FileTree.isProper_of_at? hproper hu).2 n (List.mem_append_right base hn)

include habs htree hproper in
/-- What is found at different places has different paths. -/
theorem Finds.eq_of_join_eq {b : Analyzer} (hroot : b.root = a.root) {names names' : List FileName}
    (h : a.Finds m base names) (h' : b.Finds m base names')
    (heq : a.root / pathOfNames names = b.root / pathOfNames names') : names = names' := by
  have hcomponents := congrArg Path.components heq
  rw [h.components_join habs htree hproper, h'.components_join (hroot ▸ habs) htree hproper,
    hroot] at hcomponents
  exact List.map_injective_iff.2 (fun _ _ => Path.Component.named.inj)
    (List.append_cancel_left hcomponents)

end Directory

/-! ## More than one list of excludes -/

/-- What is excluded by two lists of globs is excluded by one of them. -/
theorem isExcluded_append (E F : List Glob.Pattern) (relative : List Char) (isDirectory : Bool) :
    isExcluded (E ++ F) relative isDirectory =
      (isExcluded E relative isDirectory || isExcluded F relative isDirectory) := by
  rw [isExcluded, isExcluded, isExcluded, List.any_append, Bool.and_or_distrib_left]

/-- What two lists of excludes together include is what each of them does. -/
theorem includes_append_iff {E F : List Glob.Pattern} {names : List FileName} :
    ({ a with exclude := E ++ F } : Analyzer).Includes names ↔
      ({ a with exclude := E } : Analyzer).Includes names ∧
        ({ a with exclude := F } : Analyzer).Includes names := by
  simp only [Includes, isExcluded_append, Bool.or_eq_false_iff]
  constructor
  · intro h
    refine ⟨fun before n after hnames => ?_, fun before n after hnames => ?_⟩
    · obtain ⟨hgit, hE, -⟩ := h before n after hnames
      exact ⟨hgit, hE⟩
    · obtain ⟨hgit, -, hF⟩ := h before n after hnames
      exact ⟨hgit, hF⟩
  · rintro ⟨hE, hF⟩ before n after hnames
    obtain ⟨hgit, hE⟩ := hE before n after hnames
    exact ⟨hgit, hE, (hF before n after hnames).2⟩

/-- With more globs to exclude, what is found is what was found and is not excluded by them. -/
theorem finds_append_iff {E F : List Glob.Pattern} {base names : List FileName} :
    ({ a with exclude := E ++ F } : Analyzer).Finds m base names ↔
      ({ a with exclude := E } : Analyzer).Finds m base names ∧
        ({ a with exclude := F } : Analyzer).Finds m base names := by
  constructor
  · rintro ⟨hfile, hsupported, hincluded⟩
    obtain ⟨hE, hF⟩ := includes_append_iff.1 hincluded
    exact ⟨⟨hfile, hsupported, hE⟩, ⟨hfile, hsupported, hF⟩⟩
  · rintro ⟨⟨hfile, hsupported, hE⟩, ⟨-, -, hF⟩⟩
    exact ⟨hfile, hsupported, includes_append_iff.2 ⟨hE, hF⟩⟩

/-- **Discovery is exact.** Below a root that is a directory, without ignore files, discovery
answers with the files that are to be found, each once and in the order of their paths. What it
answers with for two lists of excludes together is what it answers with for both. -/
theorem discover_exact {base : List FileName} {ms : List (FileName × FileTree)}
    (habs : a.root.isAbsolute = true) (hbase : m.files.locate? a.root = some base)
    (htree : m.files.at? base = some (.directory ms)) (hproper : m.files.isProper = true)
    (hignore : m.HasNoIgnoreFiles base) :
    (∃ files, a.discover m = .ok files ∧ files.Pairwise (fun p q => p.compare q = .lt) ∧
      ∀ p, p ∈ files ↔ ∃ names, p = a.root / pathOfNames names ∧ a.Finds m base names) ∧
    ∀ E F : List Glob.Pattern, ∃ filesE filesF files,
      { a with exclude := E }.discover m = .ok filesE ∧
        { a with exclude := F }.discover m = .ok filesF ∧
        { a with exclude := E ++ F }.discover m = .ok files ∧
          ∀ p, p ∈ files ↔ p ∈ filesE ∧ p ∈ filesF := by
  have hok (E : List Glob.Pattern) : ∃ files,
      ({ a with exclude := E } : Analyzer).discover m = .ok files ∧
      ∀ p, p ∈ files ↔ ∃ names, p = a.root / pathOfNames names ∧
        ({ a with exclude := E } : Analyzer).Finds m base names := by
    have h := discover_eq_ok (a := { a with exclude := E }) hbase htree hignore
    exact ⟨_, h, fun p =>
      mem_iff_of_discover (a := { a with exclude := E }) habs hbase htree hproper hignore h⟩
  constructor
  · have h := discover_eq_ok (a := a) hbase htree hignore
    exact ⟨_, h, pairwise_lt_of_discover habs hproper h, fun p =>
      mem_iff_of_discover habs hbase htree hproper hignore h⟩
  · intro E F
    obtain ⟨filesE, hE, hmemE⟩ := hok E
    obtain ⟨filesF, hF, hmemF⟩ := hok F
    obtain ⟨files, h, hmem⟩ := hok (E ++ F)
    refine ⟨filesE, filesF, files, hE, hF, h, fun p => ?_⟩
    rw [hmem, hmemE, hmemF]
    constructor
    · rintro ⟨names, rfl, hfinds⟩
      obtain ⟨hfindsE, hfindsF⟩ := finds_append_iff.1 hfinds
      exact ⟨⟨names, rfl, hfindsE⟩, ⟨names, rfl, hfindsF⟩⟩
    · -- A path found in both ways is found by the same names.
      rintro ⟨⟨names, rfl, hfindsE⟩, ⟨names', heq, hfindsF⟩⟩
      obtain rfl :=
        Finds.eq_of_join_eq (a := { a with exclude := E }) (b := { a with exclude := F })
        habs htree hproper rfl hfindsE hfindsF heq
      exact ⟨names, rfl, finds_append_iff.2 ⟨hfindsE, hfindsF⟩⟩

/-- A project with a link, an excluded file, a file in a directory that is called `.git`, and a
directory that has the name of an ignore file. -/
def sampleMachine : Machine where
  files := .directory [(fileName "p", .directory [
    (fileName "l.ts", .link (Path.ofString "a.ts")),
    (fileName "x.ts", .file []),
    (fileName ".git", .directory [(fileName "b.ts", .file [])]),
    (fileName ".gitignore", .directory []),
    (fileName "a.ts", .file [])])]
  workingDirectory := Path.ofString "/"
  environment := []

/-- An analyzer of the project. -/
def sample : Analyzer where
  root := Path.ofString "/p"
  config := {}
  extractors := [.script]
  exclude := [⟨"x.ts", [⟨"x.ts".toList, "x.ts".toList.map .char⟩]⟩]
  failsOnParseError := false

/-- Where an ignore file could be, there is nothing or an empty directory. -/
theorem at?_ruleFile_sampleMachine (s : RuleSource) : ∀ directory ∈
    [[], [fileName "p"], [fileName "p", fileName ".git"], [fileName "p", fileName ".gitignore"]],
      (sampleMachine.files.follow FileTree.maxLinks directory s.file).bind
        (sampleMachine.files.at? ·) ∈
        [none, some (.directory [])] := by
  simp only [List.forall_mem_cons, List.not_mem_nil, false_implies, implies_true, and_true]
  have hnone {o : Option FileTree} (h : o = none) : o ∈ [none, some (.directory [])] := h ▸ .head _
  refine ⟨hnone ?_, ?_, hnone ?_, hnone ?_⟩
  · cases s <;> cbv
  · cases s with
    | git =>
      have hdirectory : (sampleMachine.files.follow FileTree.maxLinks [fileName "p"]
          RuleSource.git.file).bind (sampleMachine.files.at? ·) = some (.directory []) := by cbv
      exact hdirectory ▸ .tail _ (.head _)
    | own => exact hnone (by cbv)
    | gitExclude => exact hnone (by cbv)
  · cases s <;> cbv
  · cases s <;> cbv

/-- The project has no ignore files. -/
theorem hasNoIgnoreFiles_sampleMachine (base : List FileName) :
    sampleMachine.HasNoIgnoreFiles base where
  directories := by
    intro directory _ s content hcontent
    by_cases h : ∃ ms, sampleMachine.files.at? directory = some (.directory ms)
    · -- The root, the project and the two directories in it are all there is.
      have hdirectory : directory ∈
          [[], [fileName "p"], [fileName "p", fileName ".git"],
            [fileName "p", fileName ".gitignore"]] := by
        obtain ⟨ms, h⟩ := h
        rcases FileTree.exists_mem_of_at? h with rfl | ⟨n, ls, rest, hm, rfl, h⟩
        · exact .head _
        obtain ⟨rfl, rfl⟩ : n = fileName "p" ∧ ls = _ := by simpa using hm
        rcases FileTree.exists_mem_of_at? h with rfl | ⟨n, ls, rest, hm, rfl, h⟩
        · exact .tail _ (.head _)
        obtain ⟨rfl, rfl⟩ | ⟨rfl, rfl⟩ : n = fileName ".git" ∧ ls = _ ∨
          n = fileName ".gitignore" ∧ ls = _ := by simpa using hm
        · rcases FileTree.exists_mem_of_at? h with rfl | ⟨n, ls, rest, hm, -, -⟩
          · exact .tail _ (.tail _ (.head _))
          · simp at hm
        · rcases FileTree.exists_mem_of_at? h with rfl | ⟨n, ls, rest, hm, -, -⟩
          · exact .tail _ (.tail _ (.tail _ (.head _)))
          · simp at hm
      have hmem := at?_ruleFile_sampleMachine s directory hdirectory
      rw [hcontent] at hmem
      simp at hmem
    · rw [RuleSource.follow_eq_none fun ms hms => h ⟨ms, hms⟩] at hcontent
      cases hcontent
  user content h := by cases h

/-- The excluded name starts with another letter. -/
theorem isExcluded_sample {c : Char} (hc : c ≠ 'x') (s : List Char) :
    isExcluded sample.exclude (c :: s) false = false := by
  have hmatch : Glob.accepts ("x.ts".toList.map .char) (c :: s) = false := by
    have hadmits : ¬ (Glob.Token.char 'x').admits true c = true := by
      show ¬ (c == 'x') = true
      rwa [beq_iff_eq]
    rw [show "x.ts".toList.map Glob.Token.char = .char 'x' :: _ from rfl, Glob.accepts,
      Glob.matchFrom_one_cons rfl, if_neg hadmits]
    rfl
  have hdirectory :
      (⟨"x.ts".toList, "x.ts".toList.map .char⟩ : Glob.Alternative).directory? = none := by
    decide +kernel
  simp only [isExcluded, sample, Glob.Pattern.accepts, Glob.Alternative.accepts,
    List.any_cons, List.any_nil, String.toList_ofList, hmatch, hdirectory, Option.any_none,
    Bool.or_false, Bool.false_and, Bool.and_false]

/-- A name is included that does not start like the excluded one. -/
theorem includes_sample {name : FileName} {c : Char} {s : List Char} (hgit : name ≠ fileName ".git")
    (hname : (pathOfNames [name]).normalize = c :: s) (hc : c ≠ 'x') : sample.Includes [name] := by
  refine includes_singleton_iff.2 ⟨hgit, ?_⟩
  rw [hname]
  exact isExcluded_sample hc s

/-- Discovery finds the file and the link to it, and not what is below `.git`. -/
theorem discover_exact_sample : ∃ files, sample.discover sampleMachine = .ok files ∧
    Path.ofString "/p/a.ts" ∈ files ∧ Path.ofString "/p/l.ts" ∈ files ∧
      Path.ofString "/p/.git/b.ts" ∉ files := by
  have habs : sample.root.isAbsolute = true := rfl
  have hbase : sampleMachine.files.locate? sample.root = some [fileName "p"] := by cbv
  have hproper : sampleMachine.files.isProper = true := by decide +kernel
  obtain ⟨files, h, -, hmem⟩ :=
    (discover_exact habs hbase rfl hproper (hasNoIgnoreFiles_sampleMachine [fileName "p"])).1
  have hsupported (p : Path) (hp : extensionOf? p = some ".ts") :
      ∃ e, extensionOf? p = some e ∧ ∃ x ∈ sample.extractors, e ∈ x.extensions :=
    ⟨".ts", hp, .script, List.mem_singleton_self _, by decide +kernel⟩
  refine ⟨files, h, ?_, ?_, ?_⟩
  · refine (hmem _).2 ⟨[fileName "a.ts"], by decide +kernel, .inl ⟨[], rfl⟩,
      hsupported _ (by decide +kernel), ?_⟩
    have hname : (pathOfNames [fileName "a.ts"]).normalize = "a.ts".toList := by decide +kernel
    exact includes_sample (by decide +kernel) hname (by decide)
  · refine (hmem _).2
      ⟨[fileName "l.ts"], by decide +kernel, .inr ⟨⟨Path.ofString "a.ts", rfl⟩, by cbv⟩,
      hsupported _ (by decide +kernel), ?_⟩
    have hname : (pathOfNames [fileName "l.ts"]).normalize = "l.ts".toList := by decide +kernel
    exact includes_sample (by decide +kernel) hname (by decide)
  · intro hfile
    obtain ⟨names, hpath, hfinds⟩ := (hmem _).1 hfile
    have hcomponents : (Path.ofString "/p/.git/b.ts").components =
        sample.root.components ++ [fileName ".git", fileName "b.ts"].map .named := by decide +kernel
    rw [hpath, hfinds.components_join habs rfl hproper] at hcomponents
    obtain rfl := List.map_injective_iff.2 (fun _ _ => Path.Component.named.inj)
      (List.append_cancel_left hcomponents)
    exact (hfinds.included [] _ [fileName "b.ts"] rfl).1 rfl

end Analyzer

end ImportLint

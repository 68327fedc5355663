import ImportLint.Proofs.Analysis.Walk
import ImportLint.Proofs.Path.Names
import ImportLint.Proofs.Path.Order
import ImportLint.Proofs.Sort
import ImportLint.Proofs.Traverse

/-!
# From the walk to the files

The files of an analysis are what the walk lists and the analyzer takes, in the order of their
paths. Files at different places have different paths, also as far as their order goes. So each file
stands in the answer once, and nothing depends on the order in which the walk lists them.
-/

namespace ImportLint

/-- What is no directory has no ignore files. -/
theorem RuleSource.follow_eq_none {files : FileTree} {directory : List FileName}
    (h : ∀ ms, files.at? directory ≠ some (.directory ms)) (s : RuleSource) :
    files.follow FileTree.maxLinks directory s.file = none := by
  obtain ⟨n, rest, hfile⟩ : ∃ n rest, s.file = n :: rest := by cases s <;> exact ⟨_, _, rfl⟩
  rw [hfile]
  exact FileTree.follow_cons_of_not_directory h

end ImportLint

namespace ImportLint.Analyzer

variable {a : Analyzer} {m : Machine}

/-! ## Paths of places -/

/-- An analyzer that is made in an absolute directory has an absolute root. -/
theorem isAbsolute_root_of_build {workingDirectory base : Path} {config : Config}
    {excludes : List String} {extractors : List Extractor} {failsOnParseError : Bool}
    (habs : workingDirectory.isAbsolute = true)
    (h : build workingDirectory base config excludes extractors failsOnParseError = .ok a) :
    a.root.isAbsolute = true := by
  obtain ⟨exclude, -, ha⟩ := bind_eq_ok_iff.1 h
  obtain rfl := pure_eq_ok_iff.1 ha
  exact Path.isAbsolute_join habs _

/-- The components of the path of a place: those of the root, and then the names. -/
theorem components_pathAt (habs : a.root.isAbsolute = true) {names : List FileName}
    (hnames : ∀ n ∈ names, isProperName n = true) :
    (a.pathAt names).components = a.root.components ++ names.map .named := by
  unfold pathAt
  split
  · next h => simp [List.isEmpty_iff.1 h]
  · next h => exact Path.components_join habs (by simpa using h) hnames

/-- Paths that are equal in order are those of one place. -/
theorem eq_of_compare_pathAt (habs : a.root.isAbsolute = true) {names names' : List FileName}
    (hnames : ∀ n ∈ names, isProperName n = true) (hnames' : ∀ n ∈ names', isProperName n = true)
    (h : (a.pathAt names).compare (a.pathAt names') = .eq) : names = names' := by
  rw [Path.compare_eq_eq_iff, components_pathAt habs hnames, components_pathAt habs hnames'] at h
  have hnamed : names.map Path.Component.named = names'.map .named := List.append_cancel_left h
  exact List.map_injective_iff.2 (fun _ _ => Path.Component.named.inj) hnamed

/-! ## The order of files -/

/-- Sorted files that are different in order are in strict order. -/
theorem pairwise_lt_mergeSort {files : List Path}
    (h : files.Pairwise fun p q => p.compare q ≠ .eq) :
    (files.mergeSort inOrder).Pairwise fun p q => p.compare q = .lt := by
  have hsorted := List.pairwise_mergeSort (isLE_trans Path.compare) (isLE_total Path.compare) files
  have hdifferent : (files.mergeSort inOrder).Pairwise fun p q => p.compare q ≠ .eq := by
    refine (List.mergeSort_perm files inOrder).symm.pairwise h fun {p q} hpq heq => hpq ?_
    rw [@Std.OrientedCmp.eq_swap _ Path.compare _ p q, heq]
    rfl
  refine (hsorted.and hdifferent).imp fun {p q} hpq => ?_
  obtain ⟨hle, hne⟩ := hpq
  cases hcompare : p.compare q with
  | lt => rfl
  | eq => exact absurd hcompare hne
  | gt =>
    rw [hcompare] at hle
    cases hle

/-- The order in which files are listed does not matter where they are different in order. -/
theorem mergeSort_eq_of_perm {files files' : List Path} (hperm : files.Perm files')
    (h : files.Pairwise fun p q => p.compare q ≠ .eq) :
    files.mergeSort inOrder = files'.mergeSort inOrder := by
  have hsymm {p q : Path} (hpq : p.compare q ≠ .eq) : q.compare p ≠ .eq := by
    intro heq
    rw [@Std.OrientedCmp.eq_swap _ Path.compare _ p q, heq] at hpq
    exact hpq rfl
  have h' : files'.Pairwise fun p q => p.compare q ≠ .eq := hperm.pairwise h hsymm
  refine List.Perm.eq_of_pairwise (fun p q _ _ hpq hqp => ?_) (pairwise_lt_mergeSort h)
    (pairwise_lt_mergeSort h') ?_
  · rw [@Std.OrientedCmp.eq_swap _ Path.compare _ p q, hqp] at hpq
    cases hpq
  · exact ((List.mergeSort_perm files inOrder).trans hperm).trans
      (List.mergeSort_perm files' inOrder).symm

/-- What is in strict order by its paths is in no other order. -/
theorem eq_of_pairwise_lt {α : Type} {f : α → Path} {xs ys : List α}
    (hxs : xs.Pairwise fun x y => (f x).compare (f y) = .lt)
    (hys : ys.Pairwise fun x y => (f x).compare (f y) = .lt) (hmem : ∀ x, x ∈ xs ↔ x ∈ ys) :
    xs = ys := by
  have hirrefl {x y : α} (hlt : (f x).compare (f y) = .lt) : x ≠ y := by
    rintro rfl
    rw [Path.compare_eq_eq_iff.2 rfl] at hlt
    cases hlt
  have hperm : xs.Perm ys := (List.perm_ext_iff_of_nodup (hxs.imp hirrefl) (hys.imp hirrefl)).2 hmem
  -- Permutations of each other that are both in order are the same.
  refine List.Perm.eq_of_pairwise ?_ hxs hys hperm
  intro x y _ _ hxy hyx
  exact absurd hyx (Std.OrientedCmp.not_lt_of_lt hxy)

/-! ## What the walk lists -/

/-- The rules of the directories above the place of the root. -/
def rulesAbove (a : Analyzer) (m : Machine) (base : List FileName) : List DirectoryRules :=
  (directoriesAbove base).map (DirectoryRules.ofDirectory m.files a.config.respectGitignore)

/-- The files that are taken of what the walk lists, in that order. -/
def listing (a : Analyzer) (m : Machine) (base : List FileName) (tree : FileTree) : List Path :=
  ((tree.walk (a.criteria m base) (a.rulesAbove m base) []).map a.pathAt).filter (a.takes m)

/-- Discovery sorts what the walk lists, unless a directory above the root has ignore rules that are
none. -/
theorem discover_eq {base : List FileName} (hbase : m.files.locate? a.root = some base)
    {tree : FileTree} (htree : m.files.at? base = some tree) : a.discover m =
      if tree.isDirectory && !(directoriesAbove base).all
        (DirectoryRules.areSound m.files a.config.respectGitignore) then .error .unwalkable
      else .ok ((a.listing m base tree).mergeSort inOrder) := by
  unfold discover
  rw [hbase]
  simp only [htree, Option.getD_some]
  rfl

/-- Files are discovered only where the root leads somewhere. -/
theorem exists_of_discover_eq_ok {files : List Path} (h : a.discover m = .ok files) :
    ∃ base tree, m.files.locate? a.root = some base ∧ m.files.at? base = some tree ∧
      files = (a.listing m base tree).mergeSort inOrder := by
  cases hbase : m.files.locate? a.root with
  | none =>
    rw [discover, hbase] at h
    cases h
  | some base =>
    obtain ⟨tree, htree⟩ := Option.isSome_iff_exists.1 (FileTree.isSome_at?_of_follow hbase)
    rw [discover_eq hbase htree] at h
    split at h
    · cases h
    · exact ⟨base, tree, rfl, htree, (Except.ok.inj h).symm⟩

section Proper

variable (hproper : m.files.isProper = true) {base : List FileName} {tree : FileTree}
  (htree : m.files.at? base = some tree)

include hproper htree

/-- The listing has the files whose names pass and that the analyzer takes. -/
theorem mem_listing_iff {p : Path} : p ∈ a.listing m base tree ↔ ∃ names u, p = a.pathAt names ∧
    m.files.at? (base ++ names) = some u ∧ u.isDirectory = false ∧
      (a.criteria m base).Passes (a.rulesAbove m base) [] names ∧ a.takes m p = true := by
  have hat (names : List FileName) : m.files.at? (base ++ names) = tree.at? names := by
    rw [FileTree.at?_append, htree, Option.bind_some]
  simp only [listing, List.mem_filter, List.mem_map,
    FileTree.mem_walk_iff (FileTree.isProper_of_at? hproper htree).1, List.nil_append, hat]
  constructor
  · rintro ⟨⟨names, ⟨_, u, rfl, hu, hfile, hpasses⟩, rfl⟩, htakes⟩
    exact ⟨names, u, rfl, hu, hfile, hpasses, htakes⟩
  · rintro ⟨names, u, rfl, hu, hfile, hpasses, htakes⟩
    exact ⟨⟨names, ⟨names, u, rfl, hu, hfile, hpasses⟩, rfl⟩, htakes⟩

/-- What the walk lists are paths that are different in order. -/
theorem pairwise_listing (habs : a.root.isAbsolute = true) :
    (a.listing m base tree).Pairwise fun p q => p.compare q ≠ .eq := by
  have htreeProper := (FileTree.isProper_of_at? hproper htree).1
  refine List.Pairwise.filter _ (List.pairwise_map.2 ?_)
  refine List.Pairwise.imp_of_mem ?_ (FileTree.nodup_walk htreeProper)
  intro names names' hmem hmem' hne heq
  have hnames {place : List FileName}
      (hplace : place ∈ tree.walk (a.criteria m base) (a.rulesAbove m base) []) :
      ∀ n ∈ place, isProperName n = true := by
    obtain ⟨rest, u, rfl, hu, -, -⟩ := (FileTree.mem_walk_iff htreeProper).1 hplace
    exact (FileTree.isProper_of_at? htreeProper hu).2
  exact hne (eq_of_compare_pathAt habs (hnames hmem) (hnames hmem') heq)

end Proper

/-- The files that are discovered are in strict order. -/
theorem pairwise_lt_of_discover (habs : a.root.isAbsolute = true)
    (hproper : m.files.isProper = true) {files : List Path} (h : a.discover m = .ok files) :
    files.Pairwise fun p q => p.compare q = .lt := by
  obtain ⟨base, tree, -, htree, rfl⟩ := exists_of_discover_eq_ok h
  exact pairwise_lt_mergeSort (pairwise_listing hproper htree habs)

end ImportLint.Analyzer

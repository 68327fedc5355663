import ImportLint.Proofs.Analysis.Discovered

/-!
# Analyses that agree

Two analyses may write their root in different ways and run on different machines. If they list the
same names below the place of the root and read the same texts there, they discover the same files
in the same order, each relative to the root, and their outcomes are the same.
-/

namespace ImportLint

/-- Traversals agree if the checks agree on the items in their order. -/
theorem mapM_congr_of_forall₂ {α β γ ε : Type} {f : α → Except ε γ}
    {g : β → Except ε γ} {xs : List α} {ys : List β}
    (h : List.Forall₂ (fun x y => f x = g y) xs ys) : xs.mapM f = ys.mapM g := by
  induction h with
  | nil => rfl
  | cons hxy _ ih => rw [List.mapM_cons, List.mapM_cons, hxy, ih]

/-- Items written in some form, each for something of a kind, are a list of that kind written item
by item. -/
theorem exists_map_of_forall_mem {α β : Type} {f : α → β} {P : α → Prop} {ys : List β}
    (h : ∀ y ∈ ys, ∃ x, y = f x ∧ P x) : ∃ xs : List α, ys = xs.map f ∧ ∀ x ∈ xs, P x := by
  induction ys with
  | nil => exact ⟨[], rfl, by simp⟩
  | cons y ys ih =>
    obtain ⟨⟨x, rfl, hx⟩, hys⟩ := List.forall_mem_cons.1 h
    obtain ⟨xs, rfl, hxs⟩ := ih hys
    exact ⟨x :: xs, rfl, List.forall_mem_cons.2 ⟨hx, hxs⟩⟩

namespace Analyzer

variable {a b : Analyzer} {m k : Machine} {base names : List FileName}

/-- Analyzers with the **same settings** differ at most in how their roots are written. -/
structure SameSettings (a b : Analyzer) : Prop where
  config : a.config = b.config
  extractors : a.extractors = b.extractors
  exclude : a.exclude = b.exclude
  failsOnParseError : a.failsOnParseError = b.failsOnParseError

/-- An analyzer has its own settings. -/
theorem SameSettings.refl (a : Analyzer) : a.SameSettings a := ⟨rfl, rfl, rfl, rfl⟩

/-- Having the same settings is symmetric. -/
theorem SameSettings.symm (h : a.SameSettings b) : b.SameSettings a :=
  ⟨h.config.symm, h.extractors.symm, h.exclude.symm, h.failsOnParseError.symm⟩

/-- Names below the place of the root are **listed** if they lead to what is no directory, are not
passed over on the way, and make a path that is taken. -/
structure Lists (a : Analyzer) (m : Machine) (base names : List FileName) : Prop where
  there : ∃ u, m.files.at? (base ++ names) = some u ∧ u.isDirectory = false
  passes : (a.criteria m base).Passes (a.rulesAbove m base) [] names
  takes : a.takes m (a.pathAt names) = true

/-- What is listed has proper names. -/
theorem Lists.proper (hproper : m.files.isProper = true) (h : a.Lists m base names) :
    ∀ n ∈ names, isProperName n = true := by
  obtain ⟨u, hu, -⟩ := h.there
  intro n hn
  exact (FileTree.isProper_of_at? hproper hu).2 n (List.mem_append_right base hn)

/-- What is discovered is what the analyzer lists. -/
theorem mem_iff_lists_of_discover (hproper : m.files.isProper = true)
    (hbase : m.files.locate? a.root = some base) {files : List Path}
    (h : a.discover m = .ok files) {p : Path} :
    p ∈ files ↔ ∃ names, p = a.pathAt names ∧ a.Lists m base names := by
  obtain ⟨base', tree, hbase', htree, rfl⟩ := exists_of_discover_eq_ok h
  obtain rfl := Option.some.inj (hbase.symm.trans hbase')
  rw [List.mem_mergeSort, mem_listing_iff hproper htree]
  constructor
  · rintro ⟨names, u, rfl, hu, hfile, hpasses, htakes⟩
    exact ⟨names, rfl, ⟨u, hu, hfile⟩, hpasses, htakes⟩
  · rintro ⟨names, rfl, ⟨u, hu, hfile⟩, hpasses, htakes⟩
    exact ⟨names, u, rfl, hu, hfile, hpasses, htakes⟩

/-- Discovery fails in one way only. -/
theorem eq_unwalkable_of_discover {e : AnalysisError} (h : a.discover m = .error e) :
    e = .unwalkable := by
  unfold discover at h
  split at h
  · exact (Except.error.inj h).symm
  · simp only at h
    split at h
    · exact (Except.error.inj h).symm
    · cases h

/-! ## The names of the files -/

section

variable (habs : a.root.isAbsolute = true)

include habs

/-- The files discovered are those of the names listed, in the order of the paths that the names
make. -/
theorem exists_names_of_discover (hproper : m.files.isProper = true)
    (hbase : m.files.locate? a.root = some base) {files : List Path}
    (h : a.discover m = .ok files) : ∃ L : List (List FileName), files = L.map a.pathAt ∧
      (∀ names, names ∈ L ↔ a.Lists m base names) ∧
        L.Pairwise fun x y => (pathOfNames x).compare (pathOfNames y) = .lt := by
  have hmem {p : Path} := mem_iff_lists_of_discover (p := p) hproper hbase h
  obtain ⟨L, rfl, hL⟩ := exists_map_of_forall_mem fun p hp => hmem.1 hp
  refine ⟨L, rfl, ?_, ?_⟩
  · intro names
    -- Other names that make the same path would be these names.
    refine ⟨hL names, fun hlists => ?_⟩
    obtain ⟨names', hnames', heq⟩ := List.mem_map.1 (hmem.2 ⟨names, rfl, hlists⟩)
    have hcompare := Path.compare_eq_eq_iff.2 (congrArg Path.components heq)
    exact eq_of_compare_pathAt habs ((hL names' hnames').proper hproper)
      (hlists.proper hproper) hcompare ▸ hnames'
  · refine (List.pairwise_map.1 (pairwise_lt_of_discover habs hproper h)).imp_of_mem ?_
    intro x y hx hy hlt
    have hx := (hL x hx).proper hproper
    have hy := (hL y hy).proper hproper
    rw [← relative_pathAt habs hx, ← relative_pathAt habs hy,
      compare_relative_pathAt habs hx hy, hlt]

end

/-! ## Agreement -/

/-- Analyses **agree** below the place of their roots: they have the same settings, list the same
names, and read the same texts in files of the same extensions. -/
structure Agrees (a b : Analyzer) (m k : Machine) (base : List FileName) : Prop where
  settings : a.SameSettings b
  root : m.files.locate? a.root = some base
  root' : k.files.locate? b.root = some base
  lists : ∀ names, a.Lists m base names ↔ b.Lists k base names
  extension : ∀ names, a.Lists m base names →
    extensionOf? (a.pathAt names) = extensionOf? (b.pathAt names)
  text : ∀ names, a.Lists m base names → m.readText? (a.pathAt names) = k.readText? (b.pathAt names)

/-- Paths of one extension have the same extractor under the same settings. -/
theorem SameSettings.extractorFor?_eq (h : a.SameSettings b) {p q : Path}
    (hpq : extensionOf? p = extensionOf? q) : a.extractorFor? p = b.extractorFor? q := by
  rw [extractorFor?, extractorFor?, hpq, h.extractors]

/-- Files with the same path relative to the root, extension and text have the same report. -/
theorem SameSettings.reportOn_eq (h : a.SameSettings b) {p q : Path}
    (hrelative : a.relative p = b.relative q) (hextension : extensionOf? p = extensionOf? q)
    (htext : m.readText? p = k.readText? q) : a.reportOn m p = b.reportOn k q := by
  have hgoverning : a.governing? (a.relative p) = b.governing? (b.relative q) := by
    rw [governing?, governing?, hrelative, h.config]
  have hfile : a.analyzeFile m p = b.analyzeFile k q := by
    unfold analyzeFile checkSource
    rw [h.extractorFor?_eq hextension, hgoverning, htext, hrelative, h.config]
  unfold reportOn
  rw [hfile, h.failsOnParseError]

section

variable (h : Agrees a b m k base) (habs : a.root.isAbsolute = true)
  (habs' : b.root.isAbsolute = true)
  (hproper : m.files.isProper = true) (hproper' : k.files.isProper = true)

include h habs habs' hproper hproper'

/-- Analyses that agree discover the files of the same names in the same order. -/
theorem Agrees.exists_names {files files' : List Path} (hfiles : a.discover m = .ok files)
    (hfiles' : b.discover k = .ok files') : ∃ L : List (List FileName),
      files = L.map a.pathAt ∧ files' = L.map b.pathAt ∧ ∀ names ∈ L, a.Lists m base names := by
  obtain ⟨L, rfl, hL, hsorted⟩ := exists_names_of_discover habs hproper h.root hfiles
  obtain ⟨L', rfl, hL', hsorted'⟩ := exists_names_of_discover habs' hproper' h.root' hfiles'
  obtain rfl : L = L' := eq_of_pairwise_lt hsorted hsorted' fun names => by rw [hL, hL', h.lists]
  exact ⟨L, rfl, rfl, fun names => (hL names).1⟩

/-- **Analyses that agree** have the same outcome, if they do not fail before they come to a
file. -/
theorem Agrees.outcome_eq
    (hfails : a.discover m = .error .unwalkable ↔ b.discover k = .error .unwalkable) :
    a.analyze m = b.analyze k := by
  cases hfiles : a.discover m with
  | error e =>
    obtain rfl := eq_unwalkable_of_discover hfiles
    rw [analyze, analyze, hfiles, hfails.1 hfiles]
    rfl
  | ok files =>
    cases hfiles' : b.discover k with
    | error e =>
      obtain rfl := eq_unwalkable_of_discover hfiles'
      cases hfiles.symm.trans (hfails.2 hfiles')
    | ok files' =>
      obtain ⟨L, rfl, rfl, hL⟩ := h.exists_names habs habs' hproper hproper' hfiles hfiles'
      have hreports : (L.map a.pathAt).mapM (a.reportOn m) =
          (L.map b.pathAt).mapM (b.reportOn k) := by
        apply mapM_congr_of_forall₂
        rw [List.forall₂_map_left_iff, List.forall₂_map_right_iff, List.forall₂_same]
        intro names hnames
        have hproperNames := (hL names hnames).proper hproper
        apply h.settings.reportOn_eq _ (h.extension names (hL names hnames))
          (h.text names (hL names hnames))
        rw [relative_pathAt habs hproperNames, relative_pathAt habs' hproperNames]
      rw [analyze_eq hfiles, analyze_eq hfiles', hreports]

end

end Analyzer

end ImportLint

import ImportLint.Proofs.Analysis.Discovered
import ImportLint.Proofs.Analysis.Discovery
import ImportLint.Proofs.Glob.Hidden
import ImportLint.Proofs.Glob.Reach
import ImportLint.Proofs.Path.Normalize

/-!
# Passing over directories

A directory is not entered if a glob matches it with a slash after it. Whether that loses only files
that the glob matches depends on how the glob ends: it does if the glob reaches down, and never
without stars for any segments. For `dir/**` the files that are not discovered are those below the
directory, hidden or not.
-/

namespace ImportLint

/-! ## A directory with a slash -/

/-- A glob excludes what it accepts, and the directories it accepts with a slash behind them, but
never the root. -/
theorem isExcluded_singleton_iff {p : Glob.Pattern} {relative : List Char} {isDirectory : Bool} :
    isExcluded [p] relative isDirectory = true ↔
      relative ≠ [] ∧ (p.accepts (String.ofList relative) = true ∨
      isDirectory = true ∧ p.accepts (String.ofList (relative ++ ['/'])) = true) := by
  simp [isExcluded]

/-- A pattern accepts what one of its alternatives does. -/
theorem Glob.Pattern.accepts_of_mem {p : Pattern} {alt : Alternative}
    (halt : alt ∈ p.alternatives) {text : List Char} (h : alt.accepts text = true) :
    p.accepts (String.ofList text) = true := by
  rw [accepts, String.toList_ofList]
  exact List.any_eq_true.2 ⟨alt, halt, h⟩

open Glob in
/-- **A directory that is passed over for its slash.** Some spelling of the glob takes the directory
with the slash. If such a spelling reaches down, the glob takes all that is visible below the
directory. If it does not, it takes nothing of that or, where it ends in a single star, what its
stem takes without the last segment. A glob without stars for any segments does not take all. -/
theorem excluded_for_slash {text : String} {p : Pattern}
    (h : Pattern.ofString? text = .ok p) {dir : List Char}
    (hexcluded : isExcluded [p] dir true = true) (hdir : p.accepts (String.ofList dir) = false) :
    (∃ alt ∈ p.alternatives, alt.accepts (dir ++ ['/']) = true) ∧
    (∀ alt ∈ p.alternatives, alt.accepts (dir ++ ['/']) = true →
      (ReachesDown (segments alt.spelling) →
        ∀ below, IsVisible below → p.accepts (String.ofList (dir ++ '/' :: below)) = true) ∧
      (¬ ReachesDown (segments alt.spelling) →
        ∃ stem last, segments alt.spelling = stem ++ [last] ∧ (last = [] ∨ last = [.anySequence]) ∧
          SegmentsMatch stem (pieces '/' dir) ∧ ∀ below, IsVisible below →
            (alt.accepts (dir ++ '/' :: below) = true ↔
            last = [.anySequence] ∧
              SegmentsMatch stem (pieces '/' dir ++ (pieces '/' below).dropLast)))) ∧
    ((∀ alt ∈ p.alternatives, ∀ g ∈ segments alt.spelling, isAnySegments g = false) →
      ∃ below, IsVisible below ∧ p.accepts (String.ofList (dir ++ '/' :: below)) = false) := by
  refine ⟨?_, fun alt halt hslash => ?_, fun hone => Pattern.exists_not_accepts_below h hone dir⟩
  · -- The glob does not accept the directory as it is, so it accepts it with the slash.
    rw [isExcluded_singleton_iff, hdir] at hexcluded
    obtain ⟨-, hfalse | ⟨-, hslash⟩⟩ := hexcluded
    · cases hfalse
    · rw [Pattern.accepts, String.toList_ofList] at hslash
      exact List.any_eq_true.1 hslash
  · obtain ⟨w, hw⟩ := exists_ofSpelling?_of_mem h halt
    refine ⟨fun hreach below hbelow => ?_,
      fun hreach => Alternative.exists_accepts_below_iff hw hreach hslash⟩
    exact Pattern.accepts_of_mem halt
      (Alternative.accepts_below hw hreach hslash fun s hs => (hbelow s hs).2)

/-- A glob that reaches down. -/
theorem excluded_for_slash_stars : ∃ p, Glob.Pattern.ofString? "src/**" = .ok p ∧
    isExcluded [p] "src".toList true = true ∧ p.accepts (String.ofList "src".toList) = false ∧
      p.accepts (String.ofList ("src".toList ++ '/' :: "a/b.ts".toList)) = true := by
  have hbare : Glob.IsBare "src".toList := by decide +kernel
  obtain ⟨p, alt, hp, halternatives, halt, haccepts⟩ := Glob.Pattern.exists_covering hbare
  have hslash : p.accepts (String.ofList ("src".toList ++ ['/'])) = true := by
    rw [haccepts]
    decide +kernel
  have hself : p.accepts (String.ofList "src".toList) = false := by
    rw [haccepts]
    decide +kernel
  have hexcluded : isExcluded [p] "src".toList true = true :=
    isExcluded_singleton_iff.2 ⟨by decide, .inr ⟨rfl, hslash⟩⟩
  have hmem : alt ∈ p.alternatives := halternatives ▸ List.mem_singleton_self alt
  have hdirectory := Glob.Alternative.directory?_covering hbare.isPlain halt
  rw [Glob.Pattern.accepts_of_alternatives halternatives, String.toList_ofList] at hslash
  obtain ⟨-, hbelow, -⟩ := excluded_for_slash hp hexcluded hself
  refine ⟨p, hp, hexcluded, hself, (hbelow alt hmem hslash).1 ?_ _ (by decide +kernel)⟩
  exact Glob.Alternative.reachesDown_of_directory? hdirectory

/-- A directory with a slash is a glob that keeps the walk out of the directory and matches nothing
below it. -/
theorem slash_excludes_directory : ∃ p, Glob.Pattern.ofString? "src/" = .ok p ∧
    isExcluded [p] "src".toList true = true ∧ p.accepts "src" = false ∧
      Glob.IsVisible "a.ts".toList ∧ p.accepts "src/a.ts" = false := by
  have hbare : Glob.IsBare "src/".toList := by decide +kernel
  obtain ⟨p, hp, haccepts⟩ := Glob.Pattern.exists_accepts_iff_eq (by decide) hbare
  have hfalse {s : String} (hs : s ≠ "src/") : p.accepts s = false := by
    rwa [Bool.eq_false_iff, Ne, haccepts]
  refine ⟨p, hp, isExcluded_singleton_iff.2 ⟨by decide, .inr ⟨rfl, ?_⟩⟩,
    hfalse (by decide), by decide +kernel, hfalse (by decide)⟩
  rw [haccepts]
  decide

/-! ## Places that globs shut out -/

/-- Globs **shut out** a place, as seen from names on, if they exclude the place or a directory on
the way. -/
def ShutsOut (F : List Glob.Pattern) (names place : List FileName) : Prop :=
  ∃ before n after, place = before ++ n :: after ∧
    isExcluded F (pathOfNames (names ++ before ++ [n])).normalize (!after.isEmpty) = true

section

variable {F : List Glob.Pattern} {names : List FileName}

/-- Nothing is shut out where a walk starts. -/
theorem not_shutsOut_nil : ¬ ShutsOut F names [] := by
  rintro ⟨before, n, after, h, -⟩
  simp at h

/-- Names are shut out if the first is excluded or the others are shut out below it. -/
theorem shutsOut_cons_iff {n : FileName} {ns : List FileName} : ShutsOut F names (n :: ns) ↔
    isExcluded F (pathOfNames (names ++ [n])).normalize (!ns.isEmpty) = true ∨
      ShutsOut F (names ++ [n]) ns := by
  constructor
  · rintro ⟨before, k, after, h, hexcluded⟩
    cases before with
    | nil =>
      obtain ⟨rfl, rfl⟩ := List.cons.inj h
      exact .inl (by simpa using hexcluded)
    | cons b before =>
      obtain ⟨rfl, rfl⟩ := List.cons.inj h
      exact .inr ⟨before, k, after, rfl, by simpa using hexcluded⟩
  · rintro (hexcluded | ⟨before, k, after, rfl, hexcluded⟩)
    · exact ⟨[], n, ns, rfl, by simpa using hexcluded⟩
    · exact ⟨n :: before, k, after, rfl, by simpa using hexcluded⟩

/-- With more globs a walk passes to the places that it passed to before and that the globs do not
shut out. -/
theorem Criteria.passes_exclude_append_iff {c : Criteria} {rules : List DirectoryRules}
    {place : List FileName} :
    { c with exclude := c.exclude ++ F }.Passes rules names place ↔
      c.Passes rules names place ∧ ¬ ShutsOut F names place := by
  induction place generalizing rules names with
  | nil => exact iff_of_true passes_nil ⟨passes_nil, not_shutsOut_nil⟩
  | cons n ns ih =>
    have hskips (rules : List DirectoryRules) (names : List FileName) (isDirectory : Bool) :
        { c with exclude := c.exclude ++ F }.skips rules names isDirectory =
          (c.skips rules names isDirectory ||
            isExcluded F (pathOfNames names).normalize isDirectory) := by
      rw [skips, skips, Analyzer.isExcluded_append, ← Bool.or_assoc]
      rfl
    have hrules : { c with exclude := c.exclude ++ F }.rulesAt names = c.rulesAt names := rfl
    rw [passes_cons_iff, passes_cons_iff, ih, hskips, hrules, Bool.or_eq_false_iff,
      shutsOut_cons_iff, not_or, Bool.not_eq_true]
    tauto

end

section

variable {dir : List Char} {p : Glob.Pattern}
  (hp : ∀ text, p.accepts text = Glob.Alternative.isBelow dir text.toList)

include hp

/-- The pattern of a directory excludes what is visible below the directory, and the directory
itself. -/
theorem isExcluded_covering_iff {relative : List Char} {isDirectory : Bool} :
    isExcluded [p] relative isDirectory = true ↔ relative ≠ [] ∧ ∃ below,
      pieces '/' relative = pieces '/' dir ++ below ∧ (below ≠ [] ∨ isDirectory = true) ∧
        ∀ s ∈ below, Glob.isHidden s = false := by
  rw [isExcluded_singleton_iff, hp, hp, String.toList_ofList, String.toList_ofList,
    Glob.isBelow_iff_pieces, Glob.isBelow_iff_pieces, pieces_append_cons, pieces_nil]
  refine and_congr_right fun _ => ?_
  constructor
  · rintro (⟨below, hpieces, hne, hvisible⟩ | ⟨hdirectory, below, hpieces, hne, hvisible⟩)
    · exact ⟨below, hpieces, .inl hne, hvisible⟩
    · -- The empty segment after the slash is the last of those below.
      obtain ⟨between, s, rfl⟩ := (List.eq_nil_or_concat' below).resolve_left hne
      rw [← List.append_assoc] at hpieces
      exact ⟨between, (List.append_inj' hpieces rfl).1, .inr hdirectory,
        (List.forall_mem_append.1 hvisible).1⟩
  · rintro ⟨below, hpieces, hne | hdirectory, hvisible⟩
    · exact .inl ⟨below, hpieces, hne, hvisible⟩
    · refine .inr ⟨hdirectory, below ++ [[]], by rw [hpieces, List.append_assoc], by simp, ?_⟩
      exact List.forall_mem_append.2 ⟨hvisible, by simp [Glob.isHidden]⟩

/-- The pattern of a directory shuts out what is below the directory, hidden or not. -/
theorem shutsOut_covering_iff (hdir : dir ≠ []) {names : List FileName}
    (hnames : ∀ n ∈ names, isProperName n = true) (hslash : ∀ n ∈ names, Path.backslash ∉ n) :
    ShutsOut [p] [] names ↔ dir ++ ['/'] <+: (pathOfNames names).normalize := by
  have hpieces {before after : List FileName} {n : FileName} (h : names = before ++ n :: after) :
      pieces '/' (pathOfNames (before ++ [n])).normalize =
        (before ++ [n]).map Utf8.decodeLossy := by
    have hsub : before ++ [n] ⊆ names := by simp [h]
    exact Path.pieces_normalize_pathOfNames (fun k hk => hnames k (hsub hk))
      (fun k hk => hslash k (hsub hk)) (by simp)
  by_cases hnil : names = []
  · have hempty : (pathOfNames []).normalize = [] := by decide +kernel
    rw [hnil, hempty, List.prefix_nil]
    exact iff_of_false not_shutsOut_nil (by simp)
  rw [Glob.startsWith_iff_pieces, Path.pieces_normalize_pathOfNames hnames hslash hnil]
  constructor
  · -- What is excluded on the way is the directory or below it, and so is all that comes after.
    rintro ⟨before, n, after, rfl, hexcluded⟩
    rw [List.nil_append, isExcluded_covering_iff hp, hpieces rfl] at hexcluded
    obtain ⟨-, below, hbelow, hne, -⟩ := hexcluded
    refine ⟨below ++ after.map Utf8.decodeLossy, ?_, ?_⟩
    · rw [← List.append_assoc, ← hbelow, ← List.map_append, List.append_assoc,
        List.singleton_append]
    · rcases hne with hne | hdirectory
      · simp [hne]
      · simpa using fun _ => hdirectory
  · -- The directory itself is on the way to what is below it.
    rintro ⟨below, hsplit, hne⟩
    obtain ⟨front, after, rfl, hfront, rfl⟩ := List.map_eq_append_iff.1 hsplit
    obtain ⟨before, n, rfl⟩ := (List.eq_nil_or_concat' front).resolve_left (by
      rintro rfl
      exact pieces_ne_nil '/' dir hfront.symm)
    have hway : before ++ [n] ++ after = before ++ n :: after := by simp
    have hsame : pieces '/' (pathOfNames (before ++ [n])).normalize = pieces '/' dir :=
      (hpieces hway).trans hfront
    refine ⟨before, n, after, hway,
      (isExcluded_covering_iff hp).2 ⟨?_, [], ?_, .inr (by simpa using hne), by simp⟩⟩
    · rw [List.nil_append, ← joinPieces_pieces '/' (pathOfNames _).normalize,
        hsame, joinPieces_pieces]
      exact hdir
    · rw [List.nil_append, hsame, List.append_nil]

end

/-! ## Names in a tree -/

namespace FileTree

variable {test : FileName → Bool}

/-- What is at names below a directory has names that pass if all in the directory do. -/
theorem allNames_of_locate? {root : FileTree} {dir : Path}
    (h : ∀ tree, root.resolve? dir = some tree → tree.allNames test = true)
    {base names : List FileName} {u : FileTree} (hbase : root.locate? dir = some base)
    (hu : root.at? (base ++ names) = some u) : ∀ n ∈ names, test n = true := by
  obtain ⟨tree, htree⟩ := Option.isSome_iff_exists.1 (isSome_at?_of_follow hbase)
  have hresolve : root.resolve? dir = some tree := by rw [resolve?, hbase, Option.bind_some, htree]
  rw [at?_append, htree, Option.bind_some] at hu
  exact allNames_of_at? (h tree hresolve) hu

end FileTree

/-! ## Files that are not discovered -/

namespace Analyzer

section

variable {a : Analyzer} {m : Machine} (habs : a.root.isAbsolute = true)
  (hproper : m.files.isProper = true)

include habs hproper

/-- With more globs the files are discovered that were before, without those that the globs shut
out. -/
theorem discover_exclude_append {F : List Glob.Pattern} {keeps : Path → Bool}
    (hkeeps : ∀ base names u,
      m.files.locate? a.root = some base → m.files.at? (base ++ names) = some u →
      (keeps (a.pathAt names) = true ↔ ¬ ShutsOut F [] names)) :
    { a with exclude := a.exclude ++ F }.discover m = (a.discover m).map (List.filter keeps) := by
  cases hbase : m.files.locate? a.root with
  | none => simp only [discover, hbase, Except.map]
  | some base =>
    obtain ⟨tree, htree⟩ := Option.isSome_iff_exists.1 (FileTree.isSome_at?_of_follow hbase)
    have hpasses (names : List FileName) :
        ({ a with exclude := a.exclude ++ F }.criteria m base).Passes
            ({ a with exclude := a.exclude ++ F }.rulesAbove m base) [] names ↔
          (a.criteria m base).Passes (a.rulesAbove m base) [] names ∧ ¬ ShutsOut F [] names :=
      Criteria.passes_exclude_append_iff (c := a.criteria m base)
    have hmem (p : Path) :
        p ∈ ({ a with exclude := a.exclude ++ F }.listing m base tree).mergeSort inOrder ↔
        p ∈ ((a.listing m base tree).mergeSort inOrder).filter keeps := by
      rw [List.mem_filter, List.mem_mergeSort, List.mem_mergeSort, mem_listing_iff hproper htree,
        mem_listing_iff hproper htree]
      constructor
      · rintro ⟨names, u, rfl, hu, hfile, hpass, htakes⟩
        obtain ⟨hpass, hout⟩ := (hpasses names).1 hpass
        exact ⟨⟨names, u, rfl, hu, hfile, hpass, htakes⟩, (hkeeps base names u hbase hu).2 hout⟩
      · rintro ⟨⟨names, u, rfl, hu, hfile, hpass, htakes⟩, hkeep⟩
        exact ⟨names, u, rfl, hu, hfile,
          (hpasses names).2 ⟨hpass, (hkeeps base names u hbase hu).1 hkeep⟩, htakes⟩
    -- Both lists are in strict order, so it is enough that they have the same members.
    have hsorted (b : Analyzer) (hb : b.root = a.root) :
        ((b.listing m base tree).mergeSort inOrder).Pairwise fun p q => p.compare q = .lt :=
      pairwise_lt_mergeSort (pairwise_listing hproper htree (hb ▸ habs))
    have hlisting : ({ a with exclude := a.exclude ++ F }.listing m base tree).mergeSort inOrder =
        ((a.listing m base tree).mergeSort inOrder).filter keeps :=
      eq_of_pairwise_lt (f := fun p => p) (hsorted _ rfl) ((hsorted a rfl).filter keeps) hmem
    rw [discover_eq (a := { a with exclude := a.exclude ++ F }) hbase htree,
      discover_eq hbase htree, hlisting]
    split <;> rfl

/-- **Excluding what is below a directory.** With `dir/**` as one more glob, the files are
discovered that were before, without those whose path relative to the root starts with the directory
and a slash; that goes for hidden files too, although the glob accepts no path with a hidden segment
below the directory. -/
theorem discover_exclude_covering
    (hnames : ∀ tree,
      m.files.resolve? a.root = some tree → tree.allNames (!·.contains Path.backslash) = true)
    {dir : String} (hne : dir ≠ "") (hdir : Glob.IsBare dir.toList)
    (hlast : dir.toList.getLast? ≠ some '/') :
    ∃ p, Glob.Pattern.ofString? (dir ++ "/**") = .ok p ∧
      { a with exclude := a.exclude ++ [p] }.discover m = (a.discover m).map
        (List.filter fun file => ¬ dir.toList ++ ['/'] <+: (a.relative file).normalize) ∧
      ∀ below : String, Glob.HasHidden below → p.accepts (dir ++ "/" ++ below) = false := by
  obtain ⟨p, -, hp, -, -, haccepts⟩ := Glob.Pattern.exists_covering hdir
  rw [Glob.dropEndWhile_eq_self hlast] at haccepts
  refine ⟨p, hp, discover_exclude_append habs hproper fun base names u hbase hu => ?_,
    fun below hbelow => ?_⟩
  · have hnames' : ∀ n ∈ names, isProperName n = true := fun n hn =>
      (FileTree.isProper_of_at? hproper hu).2 n (List.mem_append_right base hn)
    have hslash : ∀ n ∈ names, Path.backslash ∉ n := fun n hn => by
      simpa using FileTree.allNames_of_locate? hnames hbase hu n hn
    rw [decide_eq_true_eq, relative_pathAt habs hnames',
      shutsOut_covering_iff haccepts (by simpa using hne) hnames' hslash]
  · obtain ⟨s, hs, hhidden⟩ := hbelow
    have htext : (dir ++ "/" ++ below).toList = dir.toList ++ '/' :: below.toList := by simp
    rw [haccepts, htext, Bool.eq_false_iff, Ne, Glob.isBelow_append_cons_iff]
    intro hvisible
    rw [hvisible s hs] at hhidden
    cases hhidden

end

/-- A file beside a directory that holds a file and a hidden directory with another. -/
def Pruning.members : List (FileName × FileTree) :=
  [(fileName "src", .directory [(fileName "a.txt", .file []),
    (fileName ".h", .directory [(fileName "b.txt", .file [])])]), (fileName "c.txt", .file [])]

/-- The hidden file goes with the directory, although the glob does not accept its path. -/
theorem discover_exclude_covering_hidden : ∃ p, Glob.Pattern.ofString? "src/**" = .ok p ∧
    Outcome.analyzer.discover (Outcome.machine Pruning.members) =
      .ok [Path.ofString "/c.txt", Path.ofString "/src/.h/b.txt", Path.ofString "/src/a.txt"] ∧
    { Outcome.analyzer with exclude := Outcome.analyzer.exclude ++ [p] }.discover
      (Outcome.machine Pruning.members) =
      .ok [Path.ofString "/c.txt"] ∧
    p.accepts ("src" ++ "/" ++ ".h/b.txt") = false := by
  have hproper : (Outcome.machine Pruning.members).files.isProper = true := by decide +kernel
  have hbase : (Outcome.machine Pruning.members).files.locate? Outcome.analyzer.root = some [] := by
    cbv
  have hnames : ∀ tree,
      (Outcome.machine Pruning.members).files.resolve? Outcome.analyzer.root = some tree →
      tree.allNames (!·.contains Path.backslash) = true := by
    intro tree htree
    rw [FileTree.resolve?, hbase, Option.bind_some, FileTree.at?_nil] at htree
    obtain rfl := Option.some.inj htree
    decide +kernel
  have hignore := Machine.hasNoIgnoreFiles_of_allNames (m := Outcome.machine Pruning.members)
    (fun s => by cases s <;> decide +kernel) rfl []
  have hlinks : (Outcome.machine Pruning.members).files.HasNoLinks :=
    .cons (.cons (FileTree.hasNoLinks_file _)
      (.cons (.cons (FileTree.hasNoLinks_file _) FileTree.hasNoLinks_nil) FileTree.hasNoLinks_nil))
      (.cons (FileTree.hasNoLinks_file _) FileTree.hasNoLinks_nil)
  have hfiles : Outcome.analyzer.discover (Outcome.machine Pruning.members) =
      .ok [Path.ofString "/c.txt", Path.ofString "/src/.h/b.txt", Path.ofString "/src/a.txt"] :=
    discover_eq_of_filePlaces rfl hbase rfl hproper hignore rfl hlinks rfl (by decide +kernel)
      (by decide +kernel) (by decide +kernel)
  have hbare : Glob.IsBare "src".toList := by decide +kernel
  have hlast : "src".toList.getLast? ≠ some '/' := by decide
  obtain ⟨p, hp, hdiscover, hhidden⟩ :=
    discover_exclude_covering rfl hproper hnames (by decide) hbare hlast
  refine ⟨p, hp, hfiles, ?_, hhidden _ ⟨".h".toList, by decide, rfl⟩⟩
  rw [hdiscover, hfiles]
  decide +kernel

end Analyzer

end ImportLint

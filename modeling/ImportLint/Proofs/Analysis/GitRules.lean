import ImportLint.Proofs.Analysis.Discovery
import ImportLint.Proofs.Analysis.Footprint

/-!
# Analyses without git's rules

An analyzer may leave out git's ignore rules: those of `.gitignore` files and of
`.git/info/exclude`. It then reads none of these files. The file of the user is git's too, but it is
read all the same, so what is discovered still depends on it.
-/

namespace ImportLint.Analyzer

variable {a : Analyzer} {m k : Machine}

/-! ## Where git's rules are read from -/

/-- A **source of git's rules**: a place asked for on the way to a file of rules of git, be it one
of a directory on the way to the root or below it, or that of the user, or to the settings that may
name it. -/
inductive IsGitSource (a : Analyzer) (m : Machine) (place : List FileName) : Prop
  /-- The place is asked for on the way to a file of rules of git that counts for a directory. -/
  | ofDirectory {base directory : List FileName}
      {s : RuleSource} (hbase : m.files.locate? a.root = some base)
      (hdirectory : directory <+: base ∨ base <+: directory) (hgit : s ≠ .own)
      (hplace : m.files.Asks FileTree.maxLinks directory s.file place)
  /-- The place is asked for on the way to settings of git. -/
  | ofSettings {p : Path} (hp : p ∈ m.gitSettings)
      (hplace : m.files.Asks FileTree.maxLinks [] (m.absolute p).segments place)
  /-- The place is asked for on the way to the file of the user. -/
  | ofUser {p : Path} (hp : m.globalIgnoreFile? = some p)
      (hplace : m.files.Asks FileTree.maxLinks [] (m.absolute p).segments place)

/-- A place that is of use **besides git**: the root, an ignore file that is not git's, or a file
that the walk may come upon. This does not depend on whether git's rules are left out. -/
def UsesBesidesGit (a : Analyzer) (m : Machine) : List FileName → Prop :=
  a.ConsultsFor m (· == .own)

/-- Machines **differ in git's rules**: they differ at sources of git's rules only, and in the
environment, and at none that is of use besides git. -/
structure DifferInGit (a : Analyzer) (m k : Machine) : Prop where
  workingDirectory : m.workingDirectory = k.workingDirectory
  only : ∀ place, ¬ m.files.AlikeAt k.files place → a.IsGitSource m place ∨ a.IsGitSource k place
  apart : ∀ place, a.IsGitSource m place ∨ a.IsGitSource k place →
    a.UsesBesidesGit m place ∨ a.UsesBesidesGit k place → m.files.AlikeAt k.files place

/-- An analyzer that leaves git's rules out consults what is of use besides git, and no more. -/
theorem usesBesidesGit_of_consults (hoff : a.config.respectGitignore = false)
    {place : List FileName} (h : a.Consults m place) : a.UsesBesidesGit m place := by
  have hcounts : RuleSource.counts a.config.respectGitignore = (· == .own) := by
    rw [hoff]
    funext s
    cases s <;> rfl
  rwa [Consults, hcounts] at h

/-- **Without git's rules**, an analysis has the same outcome on machines that differ in them, if
the rules of the users ignore the same. -/
theorem analyze_eq_of_differInGit (habs : a.root.isAbsolute = true)
    (hproper : m.files.isProper = true) (hproper' : k.files.isProper = true)
    (hoff : a.config.respectGitignore = false) (h : a.DifferInGit m k)
    (huser : ∀ names isDirectory,
      a.UserIgnores m names isDirectory ↔ a.UserIgnores k names isDirectory) :
    a.analyze m = a.analyze k := by
  have halike (place : List FileName) (hconsults : a.Consults m place ∨ a.Consults k place) :
      m.files.AlikeAt k.files place := by
    -- Where the trees differ there is a source of git's rules, and that is consulted for nothing
    -- else.
    by_contra hdiffers
    exact hdiffers (h.apart place (h.only place hdiffers)
      (hconsults.imp (usesBesidesGit_of_consults hoff) (usesBesidesGit_of_consults hoff)))
  have hread : ReadAlike a a m k := {
    settings := .refl a
    alike := halike
    leads :=
      fun _ hasks => FileTree.follow_eq_of_alikeAt (halike [] (.inl .top)) fun place hplace =>
      hasks place (.inl hplace)
    extension := fun _ _ _ _ _ => rfl
    user := huser }
  exact hread.analyze_eq habs habs hproper hproper'

/-! ## A project with git's rules -/

/-- A project with a file of git's rules, and a user with another. -/
def ruledMachine (git user : List UInt8) : Machine where
  files := .directory [
    (fileName "p", .directory [(fileName "a.ts", .file []), (fileName ".gitignore", .file git)]),
    (fileName "h", .directory [(fileName ".config", .directory [(fileName "git", .directory [
      (fileName "ignore", .file user)])])])]
  workingDirectory := Path.ofString "/p"
  environment := [("HOME", "/h")]

/-- An analyzer of the project that leaves git's rules out. -/
def ruleless : Analyzer where
  root := Path.ofString "/p"
  config := { respectGitignore := false }
  extractors := [.script]
  exclude := []
  failsOnParseError := false

section

variable (git user git' user' : List UInt8)

/-- The names of the project and of the user are proper. -/
theorem isProper_ruledMachine : (ruledMachine git user).files.isProper = true := by
  rfl

/-- There are no links in the project, nor at the user. -/
theorem hasNoLinks_ruledMachine : (ruledMachine git user).files.HasNoLinks :=
  .cons (.cons (FileTree.hasNoLinks_file _) (.cons (FileTree.hasNoLinks_file _)
    FileTree.hasNoLinks_nil))
    (.cons (.cons (.cons (.cons (FileTree.hasNoLinks_file _) FileTree.hasNoLinks_nil)
      FileTree.hasNoLinks_nil) FileTree.hasNoLinks_nil) FileTree.hasNoLinks_nil)

/-- Two files are alike below themselves, where nothing is. -/
theorem alikeAt_file {content other : List UInt8} {place : List FileName} (hne : place ≠ []) :
    (FileTree.file content).AlikeAt (.file other) place := by
  obtain ⟨n, ns, rfl⟩ := List.exists_cons_of_ne_nil hne
  exact .of_none rfl rfl

/-- The projects differ at most where the rules are. -/
theorem alikeAt_ruledMachine {place : List FileName}
    (hgit : place ≠ [fileName "p", fileName ".gitignore"])
    (huser : place ≠ [fileName "h", fileName ".config", fileName "git", fileName "ignore"]) :
    (ruledMachine git user).files.AlikeAt (ruledMachine git' user').files place := by
  refine .cons ?_ (.cons ?_ (.refl _ _))
  · rintro rest rfl
    refine .cons (fun _ _ => .refl _ _) (.cons ?_ (.refl _ _))
    rintro rest' rfl
    apply alikeAt_file
    rintro rfl
    exact hgit rfl
  · rintro rest rfl
    refine .cons ?_ (.refl _ _)
    rintro rest rfl
    refine .cons ?_ (.refl _ _)
    rintro rest rfl
    refine .cons ?_ (.refl _ _)
    rintro rest rfl
    apply alikeAt_file
    rintro rfl
    exact huser rfl

variable {git user}

/-- The root leads to the project. -/
theorem locate?_root_ruledMachine :
    (ruledMachine git user).files.locate? ruleless.root = some [fileName "p"] := by
  cbv

/-- The project has a script and a file of git's rules. -/
theorem at?_root_ruledMachine : (ruledMachine git user).files.at? [fileName "p"] =
    some (.directory [(fileName "a.ts", .file []), (fileName ".gitignore", .file git)]) := rfl

/-- What is of use besides git has other names than the files of git's rules. -/
theorem mem_of_usesBesidesGit {place : List FileName}
    (h : ruleless.UsesBesidesGit (ruledMachine git user) place) {n : FileName}
    (hn : place.getLast? = some n) :
    n ∈ [[], fileName "p", fileName ".ignore", fileName "a.ts"] := by
  have hmembers : ∀ k ∈ [fileName "a.ts", fileName ".gitignore"],
      (ruleless.extractorFor? (ruleless.pathAt [k])).isSome = true →
        (ruleless.pathAt [k]).segments ⊆
          [[], fileName "p", fileName ".ignore", fileName "a.ts"] := by decide +kernel
  refine h.mem_of_flat (hasNoLinks_ruledMachine git user) locate?_root_ruledMachine
    at?_root_ruledMachine
    (by simp [FileTree.isDirectory]) ?_ (by decide +kernel) hmembers hn
  intro s hown
  obtain rfl := eq_of_beq hown
  decide +kernel

/-- The file of the user is asked for at its place. -/
theorem asks_user : (ruledMachine git user).files.Asks FileTree.maxLinks []
    ((ruledMachine git user).absolute (Path.ofString "/h/.config/git/ignore")).segments
      [fileName "h", fileName ".config", fileName "git", fileName "ignore"] := by
  have hsegments :
      ((ruledMachine git user).absolute (Path.ofString "/h/.config/git/ignore")).segments =
      [] :: [fileName "h", fileName ".config", fileName "git", fileName "ignore"] := by cbv
  rw [hsegments]
  refine .idle rfl rfl
    (FileTree.asks_names (List.cons_ne_nil _ _) (by decide) (u := .file user) rfl)

/-- Projects and users with other rules differ in git's rules alone. -/
theorem differInGit_ruledMachine (git user git' user' : List UInt8) :
    ruleless.DifferInGit (ruledMachine git user) (ruledMachine git' user') where
  workingDirectory := rfl
  only place hdiffers := by
    by_cases hgit : place = [fileName "p", fileName ".gitignore"]
    · subst hgit
      refine .inl
        (.ofDirectory locate?_root_ruledMachine (.inl List.prefix_rfl) (s := .git) (by decide) ?_)
      exact FileTree.asks_names (List.cons_ne_nil _ _) (by decide) (u := .file git) rfl
    · by_cases huser : place = [fileName "h", fileName ".config", fileName "git", fileName "ignore"]
      · subst huser
        exact .inl (.ofUser (p := Path.ofString "/h/.config/git/ignore") (by cbv) asks_user)
      · exact absurd (alikeAt_ruledMachine git user git' user' hgit huser) hdiffers
  apart place _ huses := by
    have hlast {n : FileName} (hn : place.getLast? = some n) :
        n ∈ [[], fileName "p", fileName ".ignore", fileName "a.ts"] :=
      huses.elim (fun h => mem_of_usesBesidesGit h hn) fun h => mem_of_usesBesidesGit h hn
    apply alikeAt_ruledMachine
    · rintro rfl
      exact absurd (hlast rfl) (by decide)
    · rintro rfl
      exact absurd (hlast rfl) (by decide)

/-- The rules of the user are those of the file in the home directory. -/
theorem globalRules_ruledMachine : (ruledMachine git user).globalRules = Ignore.rulesOf user := by
  have hfile : (ruledMachine git user).globalIgnoreFile?.bind (ruledMachine git user).resolve? =
      some (.file user) := by cbv
  rw [Machine.globalRules, hfile]

/-- The rules of the user decide about the file. -/
theorem skips_ruledMachine {c : Criteria}
    (hc : ruleless.criteria (ruledMachine git user) [fileName "p"] = c) :
    c.skips (c.rulesAt [] :: ruleless.rulesAbove (ruledMachine git user) [fileName "p"])
      [fileName "a.ts"] false =
      (Ignore.verdict? (Ignore.rulesOf user) false (fileName "a.ts") == some .ignored) := by
  have hsource : (RuleSource.all.findSome? fun s =>
      (c.rulesAt [] :: ruleless.rulesAbove (ruledMachine git user) [fileName "p"]).findSome?
        (DirectoryRules.verdict? s (c.base ++ [fileName "a.ts"]) false)) = none := by
    subst hc
    cbv
  have hglobal : c.global = Ignore.rulesOf user := by
    rw [← hc, ← globalRules_ruledMachine, criteria]
  have hpath : c.globalPath [fileName "a.ts"] = fileName "a.ts" := by
    subst hc
    cbv
  have hgit : ([fileName "a.ts"].getLast? == some (fileName ".git")) = false := rfl
  have hexclude : isExcluded c.exclude (pathOfNames [fileName "a.ts"]).normalize false = false := by
    subst hc
    exact Bool.and_false _
  rw [Criteria.skips, Criteria.verdict?, hsource, hglobal, hpath, hgit, hexclude,
    Option.none_or, Bool.or_false, Bool.or_false]

/-- The script is discovered unless the rules of the user ignore it, whatever git's rules say. -/
theorem discover_ruledMachine : ruleless.discover (ruledMachine git user) =
    .ok (if Ignore.verdict? (Ignore.rulesOf user) false (fileName "a.ts") = some .ignored then []
      else [ruleless.pathAt [fileName "a.ts"]]) := by
  have hsound :
      (directoriesAbove [fileName "p"]).all (DirectoryRules.areSound (ruledMachine git user).files
      ruleless.config.respectGitignore) = true := by cbv
  have htakes :
      ruleless.takes (ruledMachine git user) (ruleless.pathAt [fileName "a.ts"]) = true := by
    have hfile :=
      isFile_join (a := ruleless) rfl locate?_root_ruledMachine (isProper_ruledMachine git user)
      (List.cons_ne_nil (fileName "a.ts") []) rfl
    exact Bool.and_eq_true_iff.2 ⟨hfile, by decide +kernel⟩
  have htakes' : ruleless.takes (ruledMachine git user) (ruleless.pathAt [fileName ".gitignore"]) =
      false := by cbv
  rw [discover_eq locate?_root_ruledMachine at?_root_ruledMachine, hsound, listing,
    FileTree.walk_directory]
  have hskips := @skips_ruledMachine git user _ rfl
  generalize ruleless.criteria (ruledMachine git user) [fileName "p"] = c at hskips ⊢
  generalize c.rulesAt [] :: ruleless.rulesAbove (ruledMachine git user) [fileName "p"] = rules
    at hskips ⊢
  by_cases hgit : c.skips rules [fileName ".gitignore"] false = true <;>
    by_cases hignored : Ignore.verdict? (Ignore.rulesOf user) false (fileName "a.ts") =
      some .ignored <;>
      simp [FileTree.walkMembers, FileTree.walk, FileTree.isDirectory, hskips, hgit,
        hignored, htakes, htakes']

end

/-- Another `.gitignore` file makes no difference. -/
theorem analyze_eq_of_gitignore : ruleless.analyze (ruledMachine (fileName "a.ts") []) =
    ruleless.analyze (ruledMachine [] []) :=
  analyze_eq_of_differInGit rfl (isProper_ruledMachine _ _) (isProper_ruledMachine _ _) rfl
    (differInGit_ruledMachine (fileName "a.ts") [] [] []) fun names isDirectory => by
      rw [UserIgnores, UserIgnores, globalRules_ruledMachine, globalRules_ruledMachine]
      rfl

/-- But **the rules of the user count** where git's rules are left out. -/
theorem user_rules_count : ruleless.config.respectGitignore = false ∧
    ruleless.DifferInGit (ruledMachine [] []) (ruledMachine [] (fileName "a.ts")) ∧
      ruleless.analyze (ruledMachine [] []) = .ok ⟨[], 1⟩ ∧
        ruleless.analyze (ruledMachine [] (fileName "a.ts")) = .ok ⟨[], 0⟩ := by
  have hkept : Ignore.verdict? (Ignore.rulesOf []) false (fileName "a.ts") ≠ some .ignored := by
    decide +kernel
  have hignored : Ignore.verdict? (Ignore.rulesOf (fileName "a.ts")) false (fileName "a.ts") =
      some .ignored := by
    decide +kernel
  have hreport : ruleless.reportOn (ruledMachine [] []) (ruleless.pathAt [fileName "a.ts"]) =
      .ok ⟨[], 1⟩ :=
    reportOn_of_ok (analyzeFile_of_not_selects fun e he => absurd he List.not_mem_nil)
  refine ⟨rfl, differInGit_ruledMachine _ _ _ _, ?_, ?_⟩
  · rw [analyze_eq discover_ruledMachine, if_neg hkept, List.mapM_cons, hreport]
    cbv
  · rw [analyze_eq discover_ruledMachine, if_pos hignored]
    cbv

/-- The settings may name another file of the user. -/
example : (⟨.directory [(fileName "h", .directory [(fileName ".gitconfig",
    .file (Utf8.encode "excludesFile=~/i".toList))])], Path.ofString "/p",
      [("HOME", "/h")]⟩ : Machine).globalIgnoreFile? = some (Path.ofString "/h/i") := by
  cbv

/-- These rules do leave the script out. -/
example : Ignore.verdict? (Ignore.rulesOf (fileName "a.ts")) false (fileName "a.ts") =
  some .ignored := by
  decide +kernel

end ImportLint.Analyzer

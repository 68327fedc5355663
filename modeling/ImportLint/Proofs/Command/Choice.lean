import ImportLint.Proofs.Analysis.Discovery
import ImportLint.Proofs.Analysis.Spelling
import ImportLint.Proofs.Command.Status

/-!
# A configuration file of choice

A configuration file of choice means the same wherever it is used: which directory is checked, in
which directory the command works, and which other configuration files there are makes no
difference. The root is read in the directory of the file, and however that is written, it leads to
the same files under the same relative paths.
-/

namespace ImportLint

/-- The directory of a configuration file of choice. -/
def ConfigSource.choiceDirectory (file : Path) : Path := base ⟨file, .choice⟩ ⟨[]⟩

namespace Machine

variable {m k : Machine} {f g directory directory' : Path} {excludes : List String}
  {a b : Analyzer} {r : Report}

/-! ## The same file -/

/-- Paths on two machines stand for the **same choice**: the same file, in the same directory and of
the same format. -/
structure SameChoice (m k : Machine) (f g : Path) : Prop where
  file : ∃ place content, m.files.locate? (m.absolute f) = some place ∧
    k.files.locate? (k.absolute g) = some place ∧ m.files.at? place = some (.file content) ∧
      k.files.at? place = some (.file content)
  directory : ∃ place ms ks,
    m.files.locate? (m.absolute (ConfigSource.choiceDirectory f)) = some place ∧
    k.files.locate? (k.absolute (ConfigSource.choiceDirectory g)) = some place ∧
      m.files.at? place = some (.directory ms) ∧ k.files.at? place = some (.directory ks)
  format : f.extension? = some (Utf8.encode "json".toList) ↔
    g.extension? = some (Utf8.encode "json".toList)

/-- A path that leads to a file is not empty. -/
theorem bytes_ne_nil_of_locate? {place : List FileName}
    (hplace : m.files.locate? (m.absolute f) = some place) {content : List UInt8}
    (hfile : m.files.at? place = some (.file content)) : ¬ f.bytes.isEmpty = true := by
  intro hempty
  obtain rfl : f = ⟨[]⟩ := congrArg Path.mk (List.isEmpty_iff.1 hempty)
  -- The empty path makes one with a slash at its end, and what comes before that is a directory.
  obtain ⟨front, -, hjoin⟩ := Path.exists_segments_join m.workingDirectory
  have hsegments : (m.absolute ⟨[]⟩).segments = front ++ [[]] := hjoin ⟨[]⟩ rfl
  rw [FileTree.locate?, hsegments] at hplace
  obtain ⟨left, -, hfollow, -⟩ :=
    FileTree.exists_follow_append (FileTree.follow_of_append_idle rfl hplace)
  have hnone : m.files.follow left place [[]] = none := by
    apply FileTree.follow_cons_of_not_directory
    intro ms hms
    cases hfile.symm.trans hms
  cases hplace.symm.trans ((hfollow 0 [[]]).trans hnone)

/-- The text read at a path is that of the file it leads to, decoded. -/
theorem readText?_of_locate? {place : List FileName}
    (hplace : m.files.locate? (m.absolute f) = some place) {content : List UInt8}
    (hfile : m.files.at? place = some (.file content)) : m.readText? f = Utf8.decode? content := by
  have hread : m.files.read? (m.absolute f) = some content := by
    rw [FileTree.read?_eq_some_iff, FileTree.resolve?, hplace, Option.bind_some, hfile]
  rw [readText?, if_neg (bytes_ne_nil_of_locate? hplace hfile), FileTree.readText?,
    hread, Option.bind_some]

/-- The file is read in its format. -/
theorem ofFile_of_locate? {place : List FileName}
    (hplace : m.files.locate? (m.absolute f) = some place) {text : String}
    (hfile : m.files.at? place = some (.file (Utf8.encode text.toList))) :
    Config.ofFile m f = Config.parse f text := by
  have hread : m.readText? f = some text.toList :=
    (readText?_of_locate? hplace hfile).trans (Utf8.decode?_eq_some_iff.2 rfl)
  rw [Config.ofFile, hread]
  simp only [String.ofList_toList]

/-! ## The analyzer that it makes -/

/-- With a configuration that can be read, the analyzer is built from it and from the directory of
the chosen file. -/
theorem analyzer_of_ofFile {c : Config} (hfile : Config.ofFile m f = .ok c) :
    m.analyzer directory excludes (some f) =
      (Analyzer.build m.workingDirectory (ConfigSource.choiceDirectory f) c
        excludes [] false).mapError
        fun _ => .badAnalyzer := by
  show (Config.ofFile m f).mapError _ >>= _ = _
  rw [hfile]
  rfl

/-- No analyzer is built from a chosen file that cannot be read as a configuration. -/
theorem analyzer_of_ofFile_eq_error {e : ConfigError} (hfile : Config.ofFile m f = .error e) :
    m.analyzer directory excludes (some f) = .error (.badConfig f) := by
  show (Config.ofFile m f).mapError _ >>= _ = _
  rw [hfile]
  rfl

namespace SameChoice

variable (h : m.SameChoice k f g)

include h

/-- The file is read as the same configuration, or on neither machine as one. -/
theorem ofFile : (∃ c, Config.ofFile m f = .ok c ∧ Config.ofFile k g = .ok c) ∨
    (∃ e, Config.ofFile m f = .error e) ∧ ∃ e, Config.ofFile k g = .error e := by
  obtain ⟨place, content, hf, hg, hcontent, hcontent'⟩ := h.file
  unfold Config.ofFile
  rw [readText?_of_locate? hf hcontent, readText?_of_locate? hg hcontent']
  cases Utf8.decode? content with
  | none => exact .inr ⟨⟨_, rfl⟩, ⟨_, rfl⟩⟩
  | some text =>
    -- All that parsing takes from the path is the format.
    have hparse : Config.parse f (String.ofList text) = Config.parse g (String.ofList text) := by
      unfold Config.parse
      simp only [beq_iff_eq]
      exact if_congr h.format rfl rfl
    simp only [hparse]
    cases Config.parse g (String.ofList text) with
    | error e => exact .inr ⟨⟨e, rfl⟩, ⟨e, rfl⟩⟩
    | ok c => exact .inl ⟨c, rfl, rfl⟩

/-- The analyzers have the same settings and the same root in the directory of the file, or there is
none on either machine. -/
theorem analyzers (directory directory' : Path) (excludes : List String) :
    (∃ a b p,
      m.analyzer directory excludes (some f) = .ok a ∧
        k.analyzer directory' excludes (some g) = .ok b ∧
      a.SameSettings b ∧ a.root = m.absolute (ConfigSource.choiceDirectory f) / p ∧
        b.root = k.absolute (ConfigSource.choiceDirectory g) / p) ∨
    (∃ e, m.analyzer directory excludes (some f) = .error e) ∧
      ∃ e, k.analyzer directory' excludes (some g) = .error e := by
  rcases h.ofFile with ⟨c, hc, hc'⟩ | ⟨⟨e, he⟩, e', he'⟩
  · rw [analyzer_of_ofFile hc, analyzer_of_ofFile hc']
    unfold Analyzer.build
    cases ((excludes ++ c.exclude).mapM Glob.Pattern.ofString?).mapError AnalysisError.exclude with
    | error e => exact .inr ⟨⟨_, rfl⟩, ⟨_, rfl⟩⟩
    | ok exclude =>
      exact .inl ⟨_, _, c.root, rfl, rfl, ⟨rfl, rfl, rfl, rfl⟩, Path.join_assoc _ _ _,
        Path.join_assoc _ _ _⟩
  · exact .inr ⟨⟨_, analyzer_of_ofFile_eq_error he⟩, ⟨_, analyzer_of_ofFile_eq_error he'⟩⟩

end SameChoice

/-! ## The same project -/

/-- Runs with a configuration file of choice **share a project**: nothing that an analysis consults
differs, and no path overruns the limit on links in one run alone. Neither user has ignore rules. -/
structure SharesProject (m k : Machine) (f g : Path) (excludes : List String) : Prop where
  choice : m.SameChoice k f g
  alike : ∀ directory directory' a b, m.analyzer directory excludes (some f) = .ok a →
    k.analyzer directory' excludes (some g) = .ok b →
      ∀ place, a.Consults m place ∨ b.Consults k place → m.files.AlikeAt k.files place
  overruns : ∀ directory directory' a b, m.analyzer directory excludes (some f) = .ok a →
    k.analyzer directory' excludes (some g) = .ok b →
      ∀ names, m.files.Overruns (a.pathAt names) ↔ k.files.Overruns (b.pathAt names)
  user : m.globalRules = []
  user' : k.globalRules = []

/-- Analyzers made from choices of one file on machines with one project read alike. -/
theorem SharesProject.readAlike (h : m.SharesProject k f g excludes)
    (habs : m.workingDirectory.isAbsolute = true) (habs' : k.workingDirectory.isAbsolute = true)
    (ha : m.analyzer directory excludes (some f) = .ok a)
    (hb : k.analyzer directory' excludes (some g) = .ok b) : Analyzer.ReadAlike a b m k := by
  have halike := h.alike directory directory' a b ha hb
  obtain ⟨place, ms, ks, hplace, hplace', hms, hks⟩ := h.choice.directory
  -- The roots are one path, read in two spellings of one directory.
  rcases h.choice.analyzers directory directory' excludes with
    ⟨a', b', p, ha', hb', hsettings, hroot, hroot'⟩ | ⟨⟨e, he⟩, -⟩
  · obtain rfl := Except.ok.inj (ha.symm.trans ha')
    obtain rfl := Except.ok.inj (hb.symm.trans hb')
    exact {
      settings := hsettings
      alike := halike
      leads :=
        Analyzer.leadsAs_of_root hroot hroot' hplace hplace' (halike [] (.inl .top))
          (.of_directory hms hks)
        (h.overruns directory directory' a b ha hb)
      extension := by
        intro base u hbase hu hfile
        rw [hroot] at hbase ⊢
        rw [hroot']
        exact Analyzer.extensionOf?_join (Path.isAbsolute_join habs _)
          (Path.isAbsolute_join habs' _) hplace hms hbase
          hu hfile
      user := by
        intro names isDirectory
        rw [Analyzer.UserIgnores, Analyzer.UserIgnores, h.user, h.user']
        exact Iff.rfl }
  · cases ha.symm.trans he

/-! ## Reports -/

/-- The report of a command is that of its analyzer. -/
theorem report_of_analyzer (ha : m.analyzer directory excludes (some f) = .ok a) :
    m.report directory excludes (some f) =
      ((a.analyze m).mapError fun _ => .analysisFailed).map fun r => (a, r) := by
  rw [report, ha]
  show (a.analyze m).mapError _ >>= _ = _
  cases (a.analyze m).mapError fun _ => CommandError.analysisFailed <;> rfl

/-- A command without an analyzer fails as building the analyzer does. -/
theorem report_of_analyzer_eq_error {choice : Option Path} {e : CommandError}
    (h : m.analyzer directory excludes choice = .error e) :
    m.report directory excludes choice = .error e := by
  rw [report, h]
  rfl

/-- Runs that share a project have the same report, by analyzers that read alike, or no report. -/
theorem SharesProject.reports (h : m.SharesProject k f g excludes)
    (habs : m.workingDirectory.isAbsolute = true) (habs' : k.workingDirectory.isAbsolute = true)
    (hproper : m.files.isProper = true) (hproper' : k.files.isProper = true)
    (directory directory' : Path) :
    (∃ a b r, m.report directory excludes (some f) = .ok (a, r) ∧
      k.report directory' excludes (some g) = .ok (b, r) ∧ Analyzer.ReadAlike a b m k) ∨
    (∃ e, m.report directory excludes (some f) = .error e) ∧
      ∃ e, k.report directory' excludes (some g) = .error e := by
  rcases h.choice.analyzers directory directory' excludes with
    ⟨a, b, p, ha, hb, -⟩ | ⟨⟨e, he⟩, e', he'⟩
  · have hread := h.readAlike habs habs' ha hb
    have hanalyze :=
      hread.analyze_eq (isAbsolute_root_of_analyzer habs ha) (isAbsolute_root_of_analyzer habs' hb)
      hproper hproper'
    rw [report_of_analyzer ha, report_of_analyzer hb, ← hanalyze]
    cases a.analyze m with
    | error e => exact .inr ⟨⟨_, rfl⟩, ⟨_, rfl⟩⟩
    | ok r => exact .inl ⟨a, b, r, rfl, rfl, hread⟩
  · exact .inr ⟨⟨e, report_of_analyzer_eq_error he⟩, ⟨e', report_of_analyzer_eq_error he'⟩⟩

/-! ## Statuses -/

section

variable (habs : m.workingDirectory.isAbsolute = true) (hproper : m.files.isProper = true)
  {choice : Option Path}
  (h : m.report directory excludes choice = .ok (a, r)) {format : OutputFormat}

include habs hproper h

end

end Machine

/-! ## A file of choice used from two directories -/

namespace Choice

/-- A configuration with one entry and nothing to leave out. -/
def configuration : String :=
  "[analyzer]\nexclude = []\n[[import-patterns]]\ntarget = \"**\"\nrestrictions = \"ok\"\n"

/-- The configuration as it is read. -/
def config : Config := { exclude := [], entries := [Status.entry] }

/-- A project with a configuration, a script that imports what the entry does not allow, and maybe
another configuration. -/
def projectMachine (content : List UInt8) (workingDirectory : Path)
    (others : List (FileName × FileTree)) : Machine where
  files := .directory [(fileName "p", .directory (others ++
    [(fileName "a.ts", .file (Utf8.encode Status.source)),
      (fileName "lint.toml", .file content)]))]
  workingDirectory := workingDirectory
  environment := []

/-- In the project, without another configuration. -/
def inside (content : List UInt8) : Machine := projectMachine content (Path.ofString "/p") []

/-- Outside of the project, which has a configuration of its own. -/
def outside (content : List UInt8) : Machine :=
  projectMachine content (Path.ofString "/") [(fileName "import-patterns.toml", .file [])]

/-- The root as it is written in the project. -/
def root : Path := Path.ofString "/p/./."

/-- The names that are looked up. -/
def names : List FileName :=
  [[], fileName ".", fileName "p", fileName "a.ts", fileName ".ignore",
    fileName ".gitignore", fileName ".git", fileName "info", fileName "exclude"]

section

variable {content : List UInt8}

end

/-- The path of the script below that root. -/
def script : Path := Path.ofString "/p/././a.ts"

/-- The violation by the script. -/
def violation : Violation :=
  ⟨"IMP001", "import-patterns", .error, ⟨Path.ofString "a.ts", 1, 1, 0, 11⟩,
    "Imports violates 'ok' restrictions.", none, none⟩

section

variable {content : List UInt8}

/-- The entry selects the script. -/
theorem selects : Status.entry.Selects Matcher.glob (Path.ofString "a.ts") := by
  rw [Status.entry, Entry.selects_iff_of_directory? rfl, Analyzer.Source.normalize_file]
  cbv

/-- Its import is not allowed. -/
theorem checkImports_eq :
    Id.run (checkImports Matcher.glob .error Status.entry (Path.ofString "a.ts")
      [⟨"'x'".toList, 0, 11, 1, 0⟩]) = [violation] := by
  have hquotes : Quotes "'x'".toList ['x'] := unquote?_eq_some_iff.1 (by cbv)
  exact checkImports_eq_iff.2
    ⟨[[violation]], .cons (.restricted hquotes (by decide) Status.not_accepts) .nil, rfl⟩

end

end Choice

namespace Machine

/-- Without a file of choice there is a configuration for the project only outside. -/
example : ConfigSource.find? (Choice.inside []) (Path.ofString "/p") none = none ∧
    ConfigSource.find? (Choice.outside []) (Path.ofString "/p") none =
      some ⟨Path.ofString "/p/import-patterns.toml", .project⟩ := by
  constructor <;> cbv

end Machine

/-! ## What does make a difference -/

namespace Choice

/-- Some rounds through a link. -/
def rounds (n : ℕ) : String := String.ofList (List.replicate n ['s', '/']).flatten

/-- A configuration with a root that goes through a link again and again. -/
def windingConfiguration : String := "[analyzer]\nroot = \"" ++ rounds 25 ++ "\"\nexclude = []\n"

/-- Its characters, of which the root makes up the most. -/
theorem toList_windingConfiguration : windingConfiguration.toList =
    "[analyzer]\nroot = \"".toList ++ (List.replicate 25 ['s', '/']).flatten ++
      "\"\nexclude = []\n".toList := by
  have hroot := (String.toList_append (s := "[analyzer]\nroot = \"") (t := rounds 25)).trans
    (congrArg (_ ++ ·) String.toList_ofList)
  exact String.toList_append.trans (congrArg (· ++ _) hroot)

/-- The configuration as it is read. -/
def windingConfig : Config := { root := Path.ofString (rounds 25), exclude := [] }

/-- The text is TOML, and no JSON. -/
theorem parse_windingConfiguration : Config.parseToml windingConfiguration = .ok windingConfig ∧
    Config.parseJson windingConfiguration = .error .malformed := by
  constructor
  · exact (Config.parseToml_of_toList toList_windingConfiguration).trans (by decide +kernel)
  · have hread : Json.readFront windingConfiguration.toList = none := by
      rw [toList_windingConfiguration]
      decide +kernel
    unfold Config.parseJson
    rw [hread]

/-- A machine with a configuration, a link to it that has the extension of JSON, and a link in a
directory to the directory itself. -/
def linkedMachine (content : List UInt8) : Machine where
  files := .directory [(fileName "p", .directory [(fileName "lint.toml", .file content),
    (fileName "lint.json", .link (Path.ofString "lint.toml")),
    (fileName "s", .link (Path.ofString "."))])]
  workingDirectory := Path.ofString "/p"
  environment := []

/-- The file by its name. -/
def plain : Path := Path.ofString "lint.toml"

/-- The file by a link with another extension. -/
def renamed : Path := Path.ofString "lint.json"

/-- The file by a directory that is gone round to. -/
def around : Path := Path.ofString (rounds 20 ++ "lint.toml")

/-- The analyzer that the configuration makes in a directory. -/
def analyzerIn (dir : Path) : Analyzer :=
  ⟨Path.ofString "/p" / (dir / windingConfig.root), windingConfig, [.script], [], false⟩

section

variable {content : List UInt8}

/-- All three paths lead to the configuration. -/
theorem locate?_file : ∀ file ∈ [plain, renamed, around],
    (linkedMachine content).files.locate? ((linkedMachine content).absolute file) =
      some [fileName "p", fileName "lint.toml"] := by
  rw [List.forall_mem_cons, List.forall_mem_cons, List.forall_mem_singleton]
  exact ⟨by cbv, by cbv, by cbv⟩

end

/-- The machine with the winding configuration. -/
def windingMachine : Machine := linkedMachine (Utf8.encode windingConfiguration.toList)

/-- The configuration is read from the content of the chosen file, by the format its path asks for.
-/
theorem ofFile_eq {file : Path} (hfile : file ∈ [plain, renamed, around]) :
    Config.ofFile windingMachine file = Config.parse file windingConfiguration :=
  Machine.ofFile_of_locate? (locate?_file file hfile) rfl

/-- The analyzer of a path that ends in `toml` has the configuration and the directory of that path.
-/
theorem analyzer_eq {file : Path} (hfile : file ∈ [plain, around]) (directory : Path) :
    windingMachine.analyzer directory [] (some file) =
      .ok (analyzerIn (ConfigSource.choiceDirectory file)) := by
  have hextension : ∀ file ∈ [plain, around],
      (file.extension? == some (Utf8.encode ['j', 's', 'o', 'n'])) = false := by
    rw [List.forall_mem_cons, List.forall_mem_singleton]
    exact ⟨by cbv, by cbv⟩
  have hmem : file ∈ [plain, renamed, around] := by
    simp only [List.mem_cons, List.not_mem_nil, or_false] at hfile ⊢
    exact hfile.imp_right .inr
  have hofFile : Config.ofFile windingMachine file = .ok windingConfig := by
    rw [ofFile_eq hmem, Config.parse, hextension file hfile, if_neg Bool.false_ne_true,
      parse_windingConfiguration.1]
  exact Machine.analyzer_of_ofFile hofFile

end Choice

namespace Machine

open Choice

end Machine

end ImportLint

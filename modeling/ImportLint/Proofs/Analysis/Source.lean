import ImportLint.Analysis.Run
import ImportLint.Proofs.Glob.Directory
import ImportLint.Proofs.Path.Relative
import ImportLint.Proofs.Rule.Violations
import ImportLint.Proofs.Text.Utf8
import Mathlib.Data.List.Permutation

/-!
# Selecting before reading

An analysis asks which entry governs a file before it reads the file, and before it takes the source
apart. That saves work and changes no answer: a source is checked as if all of it had been extracted
first, and a file as if its source had been given with its path relative to the root.
-/

namespace ImportLint

/-- A file is read as the text that its content encodes. -/
theorem Machine.readText?_eq_decode? {m : Machine} {p : Path} {content : List UInt8}
    (h : m.resolve? p = some (.file content)) : m.readText? p = Utf8.decode? content := by
  unfold resolve? at h
  unfold readText?
  split at h
  · cases h
  · next hne => rw [if_neg hne, FileTree.readText?, FileTree.read?, h, Option.bind_some]

/-- A file that holds the encoding of a text is read as the text. -/
theorem Machine.readText?_of_resolve? {m : Machine} {p : Path} {text : List Char}
    (h : m.resolve? p = some (.file (Utf8.encode text))) : m.readText? p = some text := by
  rw [readText?_eq_decode? h, Utf8.decode?_eq_some_iff]

/-- An entry whose target has one spelling, which covers no directory, selects what its tokens
accept. -/
theorem Entry.selects_iff_of_directory? {alt : Glob.Alternative}
    (h : alt.directory? = none) {target : String} {restrictions : List Glob.Pattern}
    {docRef : Option String} {file : Path} :
    (⟨⟨target, [alt]⟩, restrictions, docRef⟩ : Entry).Selects Matcher.glob file ↔
      Glob.accepts alt.tokens file.normalize = true := by
  show Glob.Pattern.accepts ⟨target, [alt]⟩ (String.ofList file.normalize) = true ↔ _
  rw [Glob.Pattern.accepts_singleton h, String.toList_ofList]

namespace Analyzer

variable {a : Analyzer} {m : Machine} {file : Path} {source : List Char}
  {x : Extractor} {e : String}

/-! ## The extractor of a file -/

/-- An extractor **reads** files with an extension if it is the first that supports the
extension. -/
def Reads (a : Analyzer) (x : Extractor) (e : String) : Prop :=
  ∃ before after, a.extractors = before ++ x :: after ∧
    (∀ y ∈ before, e ∉ y.extensions) ∧ e ∈ x.extensions

/-- The first extractor reads what it supports. -/
theorem Reads.head {after : List Extractor} (ha : a.extractors = x :: after)
    (he : e ∈ x.extensions) : a.Reads x e :=
  ⟨[], after, ha, by simp, he⟩

/-- The first extractor that supports an extension is the one that reads it. -/
theorem find?_supports_eq_some_iff : a.extractors.find? (·.supports e) = some x ↔ a.Reads x e := by
  have hsupports (y : Extractor) : y.supports e = true ↔ e ∈ y.extensions := List.contains_iff_mem
  exact find?_eq_some_iff_split hsupports

/-- A file has the extractor that reads its extension. -/
theorem extractorFor?_eq_some_iff :
    a.extractorFor? file = some (x, e) ↔ extensionOf? file = some e ∧ a.Reads x e := by
  rw [extractorFor?, Option.bind_eq_some_iff, ← find?_supports_eq_some_iff]
  constructor
  · rintro ⟨e', he', h⟩
    obtain ⟨y, hy, heq⟩ := Option.map_eq_some_iff.1 h
    obtain ⟨rfl, rfl⟩ := Prod.mk.inj heq
    exact ⟨he', hy⟩
  · rintro ⟨he, hx⟩
    exact ⟨e, he, by rw [hx, Option.map_some]⟩

/-! ## A source text -/

/-- The entry found for a file is the one that governs it. -/
theorem governing?_eq_some_iff {d : Entry} :
    a.governing? file = some d ↔ Governs Matcher.glob a.config.entries file d :=
  select_eq_some_iff

/-- No entry is found for a file exactly if none selects it. -/
theorem governing?_eq_none_iff :
    a.governing? file = none ↔ ∀ d ∈ a.config.entries, ¬ d.Selects Matcher.glob file :=
  select_eq_none_iff

section

variable (hx : a.extractorFor? file = some (x, e))

include hx

/-- A source that an entry governs is checked against it. -/
theorem analyzeSource_of_governs {d : Entry} (hd : Governs Matcher.glob a.config.entries file d) :
    a.analyzeSource file source = a.checkSource file source (x, e) d := by
  rw [analyzeSource, hx, governing?_eq_some_iff.2 hd]

/-- A source that no entry selects has no violations, whatever is in it. -/
theorem analyzeSource_of_not_selects
    (hnone : ∀ d ∈ a.config.entries, ¬ d.Selects Matcher.glob file) :
    a.analyzeSource file source = .ok [] := by
  rw [analyzeSource, hx, governing?_eq_none_iff.2 hnone]

/-- A source that can be taken apart is checked like its extraction. -/
theorem analyzeSource_of_read {extraction : Extraction} (h : x.read source e = .ok extraction) :
    a.analyzeSource file source =
      .ok (Id.run (check Matcher.glob a.config file extraction.imports)) := by
  rcases exists_governs_or_not_selects Matcher.glob a.config.entries file with ⟨d, hd⟩ | hnone
  · rw [analyzeSource_of_governs hx hd, check_of_governs hd, checkSource, h]
  · rw [analyzeSource_of_not_selects hx hnone, check_of_not_selects hnone]

/-- A source that cannot is an error, but only where some entry selects its file. -/
theorem analyzeSource_of_read_eq_error {cause : ExtractError}
    (h : x.read source e = .error cause) {d : Entry} (hd : d ∈ a.config.entries)
    (hselects : d.Selects Matcher.glob file) :
    a.analyzeSource file source = .error (.unparsable file cause) := by
  rcases exists_governs_or_not_selects Matcher.glob a.config.entries file with ⟨g, hg⟩ | hnone
  · rw [analyzeSource_of_governs hx hg, checkSource, h]
  · exact absurd hselects (hnone d hd)

end

/-! ## A file -/

/-- A path is **strictly below** the root if it goes on where the root ends. -/
def IsBelow (a : Analyzer) (file : Path) : Prop :=
  ∃ c cs, file.components = a.root.components ++ c :: cs

/-- A path below the root is the root and the path relative to the root, which is not empty. -/
theorem IsBelow.components_relative (h : a.IsBelow file) :
    file.components = a.root.components ++ (a.relative file).components ∧
      (a.relative file).components ≠ [] := by
  obtain ⟨c, cs, hcomponents⟩ := h
  obtain ⟨rel, hrel⟩ := Path.exists_stripPrefix?_eq_some hcomponents
  have hsplit := Path.components_of_stripPrefix? hrel
  have hrest : rel.components = c :: cs := List.append_cancel_left (hsplit.symm.trans hcomponents)
  rw [relative, hrel, Option.getD_some]
  exact ⟨hsplit, by simp [hrest]⟩

/-- The extractor of a file is that of its relative path. -/
theorem IsBelow.extractorFor?_relative (h : a.IsBelow file) :
    a.extractorFor? (a.relative file) = a.extractorFor? file := by
  obtain ⟨hsplit, hne⟩ := h.components_relative
  have hextension : extensionOf? (a.relative file) = extensionOf? file := by
    rw [extensionOf?, extensionOf?, Path.extension?_eq_of_components hsplit hne]
  rw [extractorFor?, extractorFor?, hextension]

/-- A file that holds a source is checked like the source. -/
theorem IsBelow.analyzeFile_eq (h : a.IsBelow file) (hx : a.extractorFor? file = some (x, e))
    (hsource : m.resolve? file = some (.file (Utf8.encode source))) :
    a.analyzeFile m file = a.analyzeSource (a.relative file) source := by
  rw [analyzeFile, analyzeSource, h.extractorFor?_relative, hx]
  cases hgoverning : a.governing? (a.relative file) with
  | none => rfl
  | some d => simp only [Machine.readText?_of_resolve? hsource]

/-- A file that holds a source that can be taken apart is checked like the extraction. -/
theorem IsBelow.analyzeFile_of_read (h : a.IsBelow file) (hx : a.extractorFor? file = some (x, e))
    (hsource : m.resolve? file = some (.file (Utf8.encode source))) {extraction : Extraction}
    (hread : x.read source e = .ok extraction) : a.analyzeFile m file =
      .ok (Id.run (check Matcher.glob a.config (a.relative file) extraction.imports)) := by
  rw [h.analyzeFile_eq hx hsource, analyzeSource_of_read (h.extractorFor?_relative.trans hx) hread]

/-- **Selecting first changes no answer.** If the extractor of a file can take a source apart, the
analysis of the source is the check of the extraction. If it cannot, the analysis fails with the
path of the file and the error of the extractor, unless no entry selects the file. And the analysis
of a file below the root that holds the source is that of the source, under the path relative to the
root. -/
theorem analyzeSource_spec (a : Analyzer) (source : List Char) :
    (∀ (file : Path) (x : Extractor) (e : String), extensionOf? file = some e → a.Reads x e →
      (∀ extraction, x.read source e = .ok extraction →
        a.analyzeSource file source =
          .ok (Id.run (check Matcher.glob a.config file extraction.imports))) ∧
      (∀ cause, x.read source e = .error cause →
        ((∀ d ∈ a.config.entries, ¬ d.Selects Matcher.glob file) →
          a.analyzeSource file source = .ok []) ∧
        ((∃ d ∈ a.config.entries, d.Selects Matcher.glob file) →
          a.analyzeSource file source = .error (.unparsable file cause)))) ∧
    ∀ (m : Machine) (file : Path) (x : Extractor) (e : String),
      extensionOf? file = some e → a.Reads x e →
      a.IsBelow file → m.resolve? file = some (.file (Utf8.encode source)) →
        file.components = a.root.components ++ (a.relative file).components ∧
          a.analyzeFile m file = a.analyzeSource (a.relative file) source := by
  constructor
  · intro file x e he hreads
    have hx : a.extractorFor? file = some (x, e) := extractorFor?_eq_some_iff.2 ⟨he, hreads⟩
    constructor
    · intro extraction hread
      exact analyzeSource_of_read hx hread
    · intro cause hread
      constructor
      · exact analyzeSource_of_not_selects hx
      · rintro ⟨d, hd, hselects⟩
        exact analyzeSource_of_read_eq_error hx hread hd hselects
  · intro m file x e he hreads hbelow hsource
    have hx : a.extractorFor? file = some (x, e) := extractorFor?_eq_some_iff.2 ⟨he, hreads⟩
    exact ⟨hbelow.components_relative.1, hbelow.analyzeFile_eq hx hsource⟩

/-- An extractor of lines, for sources that do not start with a number sign. -/
def Source.strict : Extractor where
  language := "strict"
  extensions := [".ts"]
  extract source extension :=
    if source.head? = some '#' then none else Extractor.lines.extract source extension

/-- An extractor of a language without a grammar. -/
def Source.missing : Extractor where
  language := ⟨"missing", fun _ _ => some "no grammar"⟩
  extensions := [".x"]
  extract _ _ := none

/-- An entry that selects files of one name, with any extension, and allows no import. -/
def Source.entry : Entry :=
  ⟨⟨"a.*", [⟨"a.*".toList, [.char 'a', .char '.', .anySequence]⟩]⟩, [], none⟩

/-- An analyzer whose second extractor is the first that supports its files. -/
def Source.analyzer : Analyzer where
  root := Path.ofString "/p"
  config := { entries := [Source.entry] }
  extractors := [⟨"none", [".txt"], fun _ _ => none⟩, Source.strict, Source.missing]
  exclude := []
  failsOnParseError := false

/-- A machine with a file below the root. -/
def Source.machine (source : List Char) : Machine where
  files := .directory [(fileName "p", .directory [(fileName "a.ts", .file (Utf8.encode source))])]
  workingDirectory := Path.ofString "/"
  environment := []

/-- The strict extractor reads files in `.ts`. -/
theorem Source.reads : Source.analyzer.Reads Source.strict ".ts" :=
  ⟨[⟨"none", [".txt"], fun _ _ => none⟩], [Source.missing], rfl, by simp, .head _⟩

/-- The extractor without a grammar reads files in `.x`. -/
theorem Source.reads_missing : Source.analyzer.Reads Source.missing ".x" :=
  ⟨[⟨"none", [".txt"], fun _ _ => none⟩, Source.strict], [], rfl, by simp [Source.strict], .head _⟩

/-- The entry selects the files that are named `a` and have an extension. -/
theorem Source.selects_iff {file : Path} {s : List Char} (hfile : file.normalize = s) :
    Source.entry.Selects Matcher.glob file ↔
      Glob.Matches true [.char 'a', .char '.', .anySequence] s := by
  have hplaced : Glob.WellPlaced [.char 'a', .char '.', .anySequence] := by simp [Glob.WellPlaced]
  rw [entry, Entry.selects_iff_of_directory? rfl, hfile, Glob.accepts_iff_matches hplaced]

/-- The path of the file as globs see it. -/
theorem Source.normalize_file : (Path.ofString "a.ts").normalize = ['a', '.', 't', 's'] := by
  decide +kernel

/-- The entry selects the file of the strict extractor. -/
theorem Source.selects : Source.entry.Selects Matcher.glob (Path.ofString "a.ts") := by
  have hrest : Glob.Longer true false ['t', 's'] false [] :=
    .more (by decide) (by decide) (.stop (by decide) rfl)
  rw [Source.selects_iff normalize_file]
  exact .one rfl (.one rfl (.longer rfl hrest .nil))

/-- The entry selects the file of the extractor without a grammar. -/
theorem Source.selects_missing : Source.entry.Selects Matcher.glob (Path.ofString "a.x") := by
  have hfile : (Path.ofString "a.x").normalize = ['a', '.', 'x'] := by decide +kernel
  rw [Source.selects_iff hfile]
  exact .one rfl (.one rfl (.longer rfl (.stop (by decide) rfl) .nil))

/-- The entry does not select a file of another name. -/
theorem Source.not_selects : ¬ Source.entry.Selects Matcher.glob (Path.ofString "b.ts") := by
  have hfile : (Path.ofString "b.ts").normalize = ['b', '.', 't', 's'] := by decide +kernel
  rw [Source.selects_iff hfile, Glob.matches_one_iff rfl]
  rintro ⟨c, s, hcons, hadmits, -⟩
  obtain ⟨rfl, rfl⟩ := List.cons.inj hcons
  cases hadmits

/-- The file is found below the root although a slash is written twice, and what it holds is
checked. A source that cannot be taken apart is an error with the relative path, and none where no
entry selects the path. Where there is no grammar the error is another one. -/
theorem analyzeSource_spec_strict :
    Source.analyzer.analyzeFile (Source.machine "'x'".toList) (Path.ofString "/p//a.ts") =
      .ok [⟨"IMP001", "import-patterns", .error, ⟨Path.ofString "a.ts", 1, 1, 0, 3⟩,
        "Imports violates '' restrictions.", none, none⟩] ∧
    Source.analyzer.analyzeSource (Path.ofString "a.ts") "#".toList =
      .error (.unparsable (Path.ofString "a.ts") (.parse "strict")) ∧
    Source.analyzer.analyzeSource (Path.ofString "b.ts") "#".toList = .ok [] ∧
    Source.analyzer.analyzeSource (Path.ofString "a.x") "#".toList =
      .error (.unparsable (Path.ofString "a.x") (.language "missing" "no grammar")) := by
  obtain ⟨hsource, hfile⟩ := analyzeSource_spec Source.analyzer "'x'".toList
  obtain ⟨hsource', -⟩ := analyzeSource_spec Source.analyzer "#".toList
  refine ⟨?_, ?_, ?_, ?_⟩
  · have hcomponents : (Path.ofString "/p//a.ts").components =
        Source.analyzer.root.components ++ [.named (fileName "a.ts")] := by decide +kernel
    have hrelative : Source.analyzer.relative (Path.ofString "/p//a.ts") =
        Path.ofString "a.ts" := by decide +kernel
    have hresolve : (Source.machine "'x'".toList).resolve? (Path.ofString "/p//a.ts") =
        some (.file (Utf8.encode "'x'".toList)) := by cbv
    have hgoverns :
        Governs Matcher.glob Source.analyzer.config.entries (Path.ofString "a.ts") Source.entry :=
      .head Source.selects
    rw [(hfile _ _ _ _ (by decide +kernel) Source.reads ⟨_, _, hcomponents⟩ hresolve).2, hrelative,
      (hsource _ _ _ (by decide +kernel) Source.reads).1 ⟨[⟨"'x'".toList, 0, 3, 1, 0⟩],
        false⟩ (by decide +kernel),
      check_of_governs hgoverns]
    decide +kernel
  · exact ((hsource' _ _ _ (by decide +kernel) Source.reads).2 _ rfl).2
      ⟨_, List.mem_singleton_self _, Source.selects⟩
  · refine ((hsource' _ _ _ (by decide +kernel) Source.reads).2 (.parse "strict") rfl).1 ?_
    exact List.forall_mem_singleton.2 Source.not_selects
  · exact ((hsource' _ _ _ (by decide +kernel) Source.reads_missing).2 _ rfl).2
      ⟨_, List.mem_singleton_self _, Source.selects_missing⟩

end Analyzer

end ImportLint

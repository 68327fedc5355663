import ImportLint.Proofs.Analysis.Order

/-!
# Module specifiers of scripts

The module specifier of an import statement is a token of it, and thus a string literal: it ends
with the quote that it starts with. So the check of a script finds a module named in quotes in each
import, and all that an import can break is a restriction.
-/

namespace ImportLint

namespace Script

/-! ## String literals -/

/-- Whether what is read of a string literal, if anything, ends with its quote. -/
def EndsWithQuote (quote : Char) (read : Option Split) : Prop :=
  ∀ p, read = some p → ∃ body, p.1 = body ++ [quote]

theorem endsWithQuote_none (quote : Char) : EndsWithQuote quote none := fun _ h => nomatch h

theorem endsWithQuote_quote (quote : Char) (rest : List Char) :
    EndsWithQuote quote (some ([quote], rest)) := by
  intro p h
  obtain rfl := Option.some.inj h
  exact ⟨[], rfl⟩

/-- Some characters more in front make no difference. -/
theorem EndsWithQuote.map {quote : Char} {read : Option Split}
    (h : EndsWithQuote quote read) {f : Split → Split} (hf : ∀ p, (f p).1 = (f ([], [])).1 ++ p.1) :
    EndsWithQuote quote (read.map f) := by
  intro q hq
  obtain ⟨p, hp, rfl⟩ := Option.map_eq_some_iff.1 hq
  obtain ⟨body, hbody⟩ := h p hp
  refine ⟨(f ([], [])).1 ++ body, ?_⟩
  rw [hf, hbody, List.append_assoc]

/-- **Reading a string literal** ends at its quote, whatever comes before. -/
theorem endsWithQuote_stringTail (quote : Char) (place : InString) (s : List Char) :
    EndsWithQuote quote (stringTail quote place s) := by
  -- At each place the literal breaks off, ends with the quote, or goes on after some characters.
  fun_induction stringTail quote place s
  all_goals
    first
    | exact endsWithQuote_none quote
    | exact endsWithQuote_quote quote _
    | exact EndsWithQuote.map (by assumption) fun _ => rfl

/-- A string literal is something between two quotes. -/
theorem exists_quotes_of_stringLiteral {s : List Char} {p : Split} (h : stringLiteral s = some p) :
    ∃ specifier, Quotes p.1 specifier := by
  -- Between single quotes or between double ones.
  unfold stringLiteral at h
  split at h
  · next r =>
    obtain ⟨p, hp, rfl⟩ := Option.map_eq_some_iff.1 h
    obtain ⟨body, hbody⟩ := endsWithQuote_stringTail '\'' .body r p hp
    exact ⟨body, '\'', .inl rfl, congrArg ('\'' :: ·) hbody⟩
  · next r =>
    obtain ⟨p, hp, rfl⟩ := Option.map_eq_some_iff.1 h
    obtain ⟨body, hbody⟩ := endsWithQuote_stringTail '"' .body r p hp
    exact ⟨body, '"', .inr (.inl rfl), congrArg ('"' :: ·) hbody⟩
  · cases h

/-- What can name a module names it in quotes. -/
theorem exists_quotes_of_admits {text : List Char} (h : Terminal.specifier.admits text = true) :
    ∃ specifier, Quotes text specifier :=
  exists_quotes_of_stringLiteral (p := (text, [])) (beq_iff_eq.1 h)

/-- The imports of a script name their modules in quotes. -/
theorem exists_quotes_of_mem_extract {source : List Char} {d : Dialect} {i : Import}
    (hi : i ∈ (Script.extract source d).imports) : ∃ specifier, Quotes i.specifier specifier := by
  obtain ⟨_, _, _, -, hcovers⟩ := (areInOrder_extract source d).within i hi
  exact exists_quotes_of_admits hcovers.admits

end Script

/-! ## Violations by scripts -/

/-- An import that names its module in quotes breaks no rule or a restriction. -/
theorem code_of_mem_checkImports {ask : Matcher Id} {severity : Severity} {e : Entry} {file : Path}
    {imports : List Import} (hquotes : ∀ i ∈ imports, ∃ s, Quotes i.specifier s) {v : Violation}
    (hv : v ∈ Id.run (checkImports ask severity e file imports)) : v.code = "IMP001" := by
  induction imports with
  | nil => cases hv
  | cons i is ih =>
    obtain ⟨⟨s, hs⟩, hrest⟩ := List.forall_mem_cons.1 hquotes
    rw [checkImports_cons, breach?_of_quotes hs] at hv
    rcases List.mem_append.1 hv with hv | hv
    · split at hv
      · cases hv
      · split at hv
        · cases hv
        · obtain rfl := List.mem_singleton.1 hv
          rfl
    · exact ih hrest hv

namespace Analyzer

/-- **A script** names a module in quotes in each of the imports that are taken from it, so all
that its check can find, under whatever configuration, are imports that no restriction allows. This
holds of scripts without errors, and of the others too, as no import is taken from where the errors
are. -/
theorem script_restricted {source : List Char} {extension : String} {x : Extraction}
    (hextract : Extractor.script.extract source extension = some x) :
    (∀ i ∈ x.imports, ∃ s, unquote? i.specifier = some s) ∧
      ∀ (a : Analyzer) (file : Path), extensionOf? file = some extension →
        a.Reads .script extension →
        ∃ vs, a.analyzeSource file source = .ok vs ∧ ∀ v ∈ vs, v.code = "IMP001" := by
  have hquotes : ∀ i ∈ x.imports, ∃ s, Quotes i.specifier s := by
    obtain rfl := Option.some.inj hextract
    intro i hi
    exact Script.exists_quotes_of_mem_extract hi
  constructor
  · intro i hi
    obtain ⟨s, hs⟩ := hquotes i hi
    exact ⟨s, unquote?_eq_some_iff.2 hs⟩
  · intro a file hextension hreads
    have hx : a.extractorFor? file = some (.script, extension) :=
      extractorFor?_eq_some_iff.2 ⟨hextension, hreads⟩
    have hread : Extractor.script.read source extension = .ok x :=
      Extractor.read_eq_ok_iff.2 ⟨rfl, hextract⟩
    refine ⟨_, analyzeSource_of_read hx hread, ?_⟩
    intro v hv
    -- No literal lacks its quotes, so a breach is one of the restrictions.
    rcases exists_governs_or_not_selects Matcher.glob a.config.entries file with ⟨e, he⟩ | hnone
    · rw [check_of_governs he] at hv
      exact code_of_mem_checkImports hquotes hv
    · rw [check_of_not_selects hnone] at hv
      cases hv

/-- A script without errors that imports two modules. -/
theorem script_restricted_two : ∃ x, Extractor.script.extract Order.source ".ts" = some x ∧
    x.imports.length = 2 ∧
    (∀ i ∈ x.imports, ∃ s, unquote? i.specifier = some s) ∧
    ∃ vs, Order.analyzer.analyzeSource (Path.ofString "a.ts") Order.source = .ok vs ∧
      ∀ v ∈ vs, v.code = "IMP001" := by
  have hextract : Extractor.script.extract Order.source ".ts" =
      some (Script.extract Order.source .typescript) := rfl
  rw [Order.extract_source] at hextract
  obtain ⟨hquotes, hcodes⟩ := script_restricted hextract
  exact ⟨_, hextract, rfl, hquotes, hcodes Order.analyzer (Path.ofString "a.ts") (by decide +kernel)
    (Reads.head rfl (by decide +kernel))⟩

end Analyzer

end ImportLint

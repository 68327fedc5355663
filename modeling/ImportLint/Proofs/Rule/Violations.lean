import ImportLint.Proofs.Traverse
import ImportLint.Rule.Check

/-!
# What checking a file answers

The rule, said without the check: which entry governs a file, what an import of the file is due
under the entry, and that the check of the file answers with what its imports are due, in their
order. The matcher is any pure answer to questions, so nothing here depends on what a pattern means.
-/

namespace ImportLint

/-! ## Literals in quotes -/

/-- A literal **quotes** a module specifier if it is the specifier between two quotes of one
kind. -/
def Quotes (literal specifier : List Char) : Prop :=
  ∃ q, (q = '\'' ∨ q = '"' ∨ q = '\x60') ∧ literal = q :: specifier ++ [q]

/-- A quote is a single one, a double one or a backtick. -/
theorem isQuote_iff {c : Char} : isQuote c = true ↔ c = '\'' ∨ c = '"' ∨ c = '\x60' := by
  simp [isQuote, or_assoc]

/-- A literal is stripped of its quotes exactly if it quotes a specifier. -/
theorem unquote?_eq_some_iff {literal specifier : List Char} :
    unquote? literal = some specifier ↔ Quotes literal specifier := by
  cases literal with
  | nil =>
    simp [unquote?, Quotes]
  | cons q r =>
    constructor
    · intro h
      rw [unquote?] at h
      split at h
      · next hq =>
        rw [Bool.and_eq_true, beq_iff_eq] at hq
        obtain ⟨hquote, hlast⟩ := hq
        obtain rfl := Option.some.inj h
        refine ⟨q, isQuote_iff.1 hquote, ?_⟩
        rw [List.cons_append, List.dropLast_append_getLast? q hlast]
      · cases h
    · rintro ⟨q', hquote, heq⟩
      obtain ⟨rfl, rfl⟩ := List.cons.inj heq
      have hq : isQuote q = true := isQuote_iff.2 hquote
      simp [unquote?, hq]

/-- A literal cannot be stripped of quotes exactly if it quotes nothing. -/
theorem unquote?_eq_none_iff {literal : List Char} :
    unquote? literal = none ↔ ∀ specifier, ¬ Quotes literal specifier := by
  simp only [Option.eq_none_iff_forall_ne_some, ne_eq, unquote?_eq_some_iff]

/-! ## The entry that governs a file -/

/-- An entry **selects** a file if the matcher accepts its target for the path. -/
def Entry.Selects (ask : Matcher Id) (file : Path) (e : Entry) : Prop :=
  Id.run (ask ⟨String.ofList file.normalize, e.target⟩) = true

/-- Whether an entry selects a file can be decided. -/
instance (ask : Matcher Id) (file : Path) (e : Entry) : Decidable (e.Selects ask file) :=
  inferInstanceAs (Decidable (_ = true))

/-- An entry **governs** a file if it is the first of the entries that select it. -/
def Governs (ask : Matcher Id) (entries : List Entry) (file : Path) (e : Entry) : Prop :=
  ∃ before after, entries = before ++ e :: after ∧ (∀ d ∈ before, ¬ d.Selects ask file) ∧
    e.Selects ask file

section

variable {ask : Matcher Id} {entries : List Entry} {file : Path}

/-- The first entry governs what it selects. -/
theorem Governs.head {e : Entry} (h : e.Selects ask file) : Governs ask (e :: entries) file e :=
  ⟨[], entries, rfl, by simp, h⟩

/-- The entry selected is the first whose target matches. -/
theorem select_eq_find? : Id.run (select ask entries file) =
    entries.find? fun e => Id.run (ask ⟨String.ofList file.normalize, e.target⟩) :=
  List.idRun_findM? ..

/-- The entry selected is the one that governs the file. -/
theorem select_eq_some_iff {e : Entry} :
    Id.run (select ask entries file) = some e ↔ Governs ask entries file e := by
  rw [select_eq_find?]
  exact find?_eq_some_iff_split fun d => Iff.rfl

/-- No entry is selected exactly if none selects the file. -/
theorem select_eq_none_iff :
    Id.run (select ask entries file) = none ↔ ∀ e ∈ entries, ¬ e.Selects ask file := by
  rw [select_eq_find?, List.find?_eq_none]
  rfl

end

/-! ## What an import is due -/

/-- What an import of a file is **due** under an entry: a violation if its specifier is not in
quotes, nothing if the module is named relative to the file or the matcher accepts a restriction for
it, and a violation that names all restrictions otherwise. -/
inductive Entry.Due (ask : Matcher Id) (severity : Severity) (e : Entry)
    (file : Path) (i : Import) :
    List Violation → Prop
  | unquoted (hquotes : ∀ s, ¬ Quotes i.specifier s) :
    Due ask severity e file i [{
      code := "IMP002"
      rule := "import-patterns"
      severity := severity
      location := ⟨file, i.line, i.column + 1, i.offset, i.width⟩
      message :=
        "Module specifier " ++ String.ofList i.specifier ++ " is not a quoted string literal."
      suggestion := some "write the module specifier as a quoted string literal"
      docRef := e.docRef }]
  | relative {s : List Char} (hquotes : Quotes i.specifier s) (hdot : s.head? = some '.') :
    Due ask severity e file i []
  | allowed {s : List Char} (hquotes : Quotes i.specifier s) (hdot : s.head? ≠ some '.')
      (hallowed : ∃ r ∈ e.restrictions, Id.run (ask ⟨String.ofList s, r⟩) = true) :
    Due ask severity e file i []
  | restricted {s : List Char} (hquotes : Quotes i.specifier s) (hdot : s.head? ≠ some '.')
      (hrestricted : ∀ r ∈ e.restrictions, Id.run (ask ⟨String.ofList s, r⟩) = false) :
    Due ask severity e file i [{
      code := "IMP001"
      rule := "import-patterns"
      severity := severity
      location := ⟨file, i.line, i.column + 1, i.offset, i.width⟩
      message := "Imports violates '" ++ String.intercalate " or " (e.restrictions.map (·.text)) ++
        "' restrictions."
      suggestion := none
      docRef := e.docRef }]

section

variable {ask : Matcher Id} {severity : Severity} {e : Entry} {file : Path}

/-- What is wrong with an import that quotes a module, the questions about the restrictions
answered. -/
theorem breach?_of_quotes {i : Import} {s : List Char} (hs : Quotes i.specifier s) :
    Id.run (breach? ask e i) =
      if s.head? = some '.' then none
      else if e.restrictions.any (fun r => Id.run (ask ⟨String.ofList s, r⟩)) then none
      else some .restricted := by
  have hunquote : unquote? i.specifier = some s := unquote?_eq_some_iff.2 hs
  have hany : e.restrictions.anyM (fun r => ask ⟨String.ofList s, r⟩) =
      pure (e.restrictions.any fun r => Id.run (ask ⟨String.ofList s, r⟩)) :=
    List.anyM_pure
  simp only [breach?, hunquote, isRelative, beq_iff_eq, hany]
  split <;> rfl

/-- An import whose literal quotes nothing is a breach of every entry. -/
theorem breach?_of_not_quotes {i : Import} (hquotes : ∀ s, ¬ Quotes i.specifier s) :
    Id.run (breach? ask e i) = some .unquoted := by
  rw [breach?, unquote?_eq_none_iff.2 hquotes]
  rfl

/-- What an import is due is the violation of its breach, if there is one. -/
theorem Entry.due_iff {i : Import} {vs : List Violation} : e.Due ask severity file i vs ↔
    vs = ((Id.run (breach? ask e i)).map (·.violation severity e file i)).toList := by
  constructor
  · intro h
    cases h with
    | unquoted hquotes =>
      rw [breach?_of_not_quotes hquotes]
      rfl
    | relative hquotes hdot =>
      rw [breach?_of_quotes hquotes, if_pos hdot]
      rfl
    | allowed hquotes hdot hallowed =>
      rw [breach?_of_quotes hquotes, if_neg hdot, if_pos (List.any_eq_true.2 hallowed)]
      rfl
    | @restricted s hquotes hdot hrestricted =>
      have hnone : ¬ e.restrictions.any (fun r => Id.run (ask ⟨String.ofList s, r⟩)) = true := by
        rw [Bool.not_eq_true, List.any_eq_false]
        intro r hr
        rw [hrestricted r hr]
        exact Bool.false_ne_true
      rw [breach?_of_quotes hquotes, if_neg hdot, if_neg hnone]
      rfl
  · rintro rfl
    -- Each import falls under one of the four cases.
    by_cases hquotes : ∃ s, Quotes i.specifier s
    · obtain ⟨s, hs⟩ := hquotes
      rw [breach?_of_quotes hs]
      by_cases hdot : s.head? = some '.'
      · rw [if_pos hdot]
        exact .relative hs hdot
      · rw [if_neg hdot]
        by_cases hallowed : ∃ r ∈ e.restrictions, Id.run (ask ⟨String.ofList s, r⟩) = true
        · rw [if_pos (List.any_eq_true.2 hallowed)]
          exact .allowed hs hdot hallowed
        · have hrestricted : ∀ r ∈ e.restrictions, Id.run (ask ⟨String.ofList s, r⟩) = false := by
            intro r hr
            exact Bool.eq_false_iff.2 fun htrue => hallowed ⟨r, hr, htrue⟩
          rw [if_neg fun hany => hallowed (List.any_eq_true.1 hany)]
          exact .restricted hs hdot hrestricted
    · rw [not_exists] at hquotes
      rw [breach?_of_not_quotes hquotes]
      exact .unquoted hquotes

/-- The violations of some imports are that of the first, if there is one, and those of the
others. -/
theorem checkImports_cons {i : Import} {is : List Import} :
    Id.run (checkImports ask severity e file (i :: is)) =
      ((Id.run (breach? ask e i)).map (·.violation severity e file i)).toList ++
        Id.run (checkImports ask severity e file is) := rfl

/-- The violations of some imports are what each of them is due, one after the other. -/
theorem checkImports_eq_iff {imports : List Import} {vs : List Violation} :
    Id.run (checkImports ask severity e file imports) = vs ↔
      ∃ each, List.Forall₂ (e.Due ask severity file) imports each ∧ vs = each.flatten := by
  -- By induction on the imports, each of which adds what is due for it.
  induction imports generalizing vs with
  | nil =>
    simp only [List.forall₂_nil_left_iff]
    constructor
    · rintro rfl
      exact ⟨[], rfl, rfl⟩
    · rintro ⟨_, rfl, rfl⟩
      rfl
  | cons i is ih =>
    rw [checkImports_cons]
    constructor
    · rintro rfl
      obtain ⟨each, heach, hflat⟩ := ih.1 rfl
      refine ⟨_ :: each, .cons (Entry.due_iff.2 rfl) heach, ?_⟩
      rw [List.flatten_cons, ← hflat]
    · rintro ⟨_, heach, rfl⟩
      obtain ⟨due, rest, hdue, hrest, rfl⟩ := List.forall₂_cons_left_iff.1 heach
      rw [List.flatten_cons, ← Entry.due_iff.1 hdue, ih.2 ⟨rest, hrest, rfl⟩]

end

/-! ## Where violations are -/

/-- The place of an import statement in a file, as a violation cites it. -/
def Import.location (file : Path) (i : Import) : Location :=
  ⟨file, i.line, i.column + 1, i.offset, i.width⟩

section

variable {ask : Matcher Id} {severity : Severity} {e : Entry} {file : Path} {imports : List Import}

/-- Violations are at the places of imports, at most one at each, in the order of the imports. -/
theorem map_location_checkImports :
    ((Id.run (checkImports ask severity e file imports)).map (·.location)).Sublist
      (imports.map (Import.location file)) := by
  induction imports with
  | nil => exact .slnil
  | cons i is ih =>
    rw [checkImports_cons, List.map_cons]
    cases Id.run (breach? ask e i) with
    | none => exact ih.cons _
    | some b => exact ih.cons_cons _

/-- Violations are in the file that is checked. -/
theorem file_of_mem_checkImports {v : Violation}
    (hv : v ∈ Id.run (checkImports ask severity e file imports)) : v.location.file = file := by
  have hlocation :
      v.location ∈ (Id.run (checkImports ask severity e file imports)).map (·.location) :=
    List.mem_map_of_mem hv
  obtain ⟨i, -, hi⟩ := List.mem_map.1 (map_location_checkImports.subset hlocation)
  rw [← hi]
  rfl

end

/-! ## Checking a file -/

section

variable {ask : Matcher Id} {config : Config} {file : Path} {imports : List Import}

/-- A file is checked against the entry that governs it. -/
theorem check_of_governs {e : Entry} (he : Governs ask config.entries file e) :
    Id.run (check ask config file imports) =
      Id.run (checkImports ask config.severity e file imports) := by
  have hselect : select ask config.entries file = some e := select_eq_some_iff.2 he
  unfold check
  rw [hselect]
  rfl

/-- A file that no entry selects has no violations. -/
theorem check_of_not_selects (hnone : ∀ e ∈ config.entries, ¬ e.Selects ask file) :
    Id.run (check ask config file imports) = [] := by
  have hselect : select ask config.entries file = none := select_eq_none_iff.2 hnone
  unfold check
  rw [hselect]
  rfl

/-- One entry governs a file, or none selects it. -/
theorem exists_governs_or_not_selects (ask : Matcher Id) (entries : List Entry) (file : Path) :
    (∃ e, Governs ask entries file e) ∨ ∀ e ∈ entries, ¬ e.Selects ask file := by
  cases h : Id.run (select ask entries file) with
  | none => exact .inr (select_eq_none_iff.1 h)
  | some e => exact .inl ⟨e, select_eq_some_iff.1 h⟩

/-- The entry that governs a file is one of those that select it. -/
theorem Governs.exists_selects {entries : List Entry} {e : Entry}
    (he : Governs ask entries file e) : ∃ d ∈ entries, d.Selects ask file := by
  obtain ⟨before, after, rfl, -, he⟩ := he
  exact ⟨e, by simp, he⟩

/-- At most one entry governs a file. -/
theorem Governs.unique {entries : List Entry} {d e : Entry} (hd : Governs ask entries file d)
    (he : Governs ask entries file e) : d = e :=
  Option.some.inj ((select_eq_some_iff.2 hd).symm.trans (select_eq_some_iff.2 he))

end

/-- **The rule.** The check of a file answers with nothing if no entry selects the file, and
otherwise with what each import is due under the entry that governs it, import by import. Of the
entries only that one counts: configurations of one severity in which the same entry governs the
file give the same answer. -/
theorem check_eq_iff (ask : Matcher Id) (config : Config) (file : Path) (imports : List Import) :
    (∀ vs, Id.run (check ask config file imports) = vs ↔
      (∀ e ∈ config.entries, ¬ e.Selects ask file) ∧ vs = [] ∨
        ∃ e, Governs ask config.entries file e ∧
          ∃ each, List.Forall₂ (e.Due ask config.severity file) imports each ∧ vs = each.flatten) ∧
    ∀ (other : Config) (e : Entry), other.severity = config.severity →
      Governs ask config.entries file e → Governs ask other.entries file e →
        Id.run (check ask other file imports) = Id.run (check ask config file imports) := by
  constructor
  · intro vs
    rcases exists_governs_or_not_selects ask config.entries file with ⟨e, he⟩ | hnone
    · rw [check_of_governs he, checkImports_eq_iff]
      constructor
      · intro h
        exact .inr ⟨e, he, h⟩
      · rintro (⟨hnone, -⟩ | ⟨e', he', h⟩)
        · obtain ⟨d, hd, hselects⟩ := he.exists_selects
          exact absurd hselects (hnone d hd)
        · rwa [he.unique he']
    · rw [check_of_not_selects hnone]
      constructor
      · rintro rfl
        exact .inl ⟨hnone, rfl⟩
      · rintro (⟨-, rfl⟩ | ⟨e, he, -⟩)
        · rfl
        · obtain ⟨d, hd, hselects⟩ := he.exists_selects
          exact absurd hselects (hnone d hd)
  · intro other e hseverity hconfig hother
    rw [check_of_governs hother, check_of_governs hconfig, hseverity]

/-- Three entries, of which the first does not select the file and the others do: the second alone
gives the same answer, which is a violation by the module that no restriction allows and one by the
bare word. -/
theorem check_eq_iff_second_entry :
    Id.run (check Matcher.literalStart
      { entries := [⟨⟨"lib", []⟩, [⟨"x", []⟩], none⟩,
        ⟨⟨"src", []⟩, [⟨"vs", []⟩, ⟨"fs", []⟩], some "D.md"⟩,
          ⟨⟨"", []⟩, [⟨"", []⟩], none⟩] }
      (Path.ofString "./src/a.ts")
      [⟨"'./b'".toList, 0, 8, 1, 0⟩, ⟨"'vs/c'".toList, 9, 9, 2, 0⟩, ⟨"'react'".toList, 19, 9, 3, 0⟩,
        ⟨"react".toList, 30, 7, 4, 1⟩]) =
      [⟨"IMP001", "import-patterns", .error, ⟨Path.ofString "./src/a.ts", 3, 1, 19, 9⟩,
          "Imports violates 'vs or fs' restrictions.", none, some "D.md"⟩,
        ⟨"IMP002", "import-patterns", .error, ⟨Path.ofString "./src/a.ts", 4, 2, 30, 7⟩,
          "Module specifier react is not a quoted string literal.",
          some "write the module specifier as a quoted string literal", some "D.md"⟩] := by
  have hother := (check_eq_iff Matcher.literalStart
    { entries := [⟨⟨"src", []⟩, [⟨"vs", []⟩, ⟨"fs", []⟩], some "D.md"⟩] }
      (Path.ofString "./src/a.ts")
    [⟨"'./b'".toList, 0, 8, 1, 0⟩, ⟨"'vs/c'".toList, 9, 9, 2, 0⟩, ⟨"'react'".toList, 19, 9, 3, 0⟩,
      ⟨"react".toList, 30, 7, 4, 1⟩]).2
    { entries := [⟨⟨"lib", []⟩, [⟨"x", []⟩], none⟩,
      ⟨⟨"src", []⟩, [⟨"vs", []⟩, ⟨"fs", []⟩], some "D.md"⟩, ⟨⟨"", []⟩, [⟨"", []⟩], none⟩] }
    ⟨⟨"src", []⟩, [⟨"vs", []⟩, ⟨"fs", []⟩], some "D.md"⟩ rfl
    ⟨[], [], rfl, by decide +kernel, by decide +kernel⟩
    ⟨[⟨⟨"lib", []⟩, [⟨"x", []⟩], none⟩], [⟨⟨"", []⟩, [⟨"", []⟩], none⟩], rfl, by decide +kernel,
      by decide +kernel⟩
  rw [hother]
  decide +kernel

end ImportLint

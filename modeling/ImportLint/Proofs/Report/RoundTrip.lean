import ImportLint.Command.Output
import ImportLint.Proofs.Json.RoundTrip
import ImportLint.Proofs.Text.Decimal
import ImportLint.Proofs.Text.Utf8

/-!
# Reports read back from JSON

A report is a document if the paths in it are text, and that document is read back as the report if
the numbers fit into 64 bits. Written in JSON, on one line or laid out as the command prints it, a
report is therefore read back as it was, whatever characters its texts are made of; and so is a
single violation.
-/

namespace ImportLint

open Document

/-! ## Values -/

/-- The digits of a number are a numeral. -/
theorem Json.isNumeral_digits (n : Nat) : isNumeral (Decimal.digits n) = true := by
  have hdigits : (Decimal.digits n).all Char.isDigit = true :=
    List.all_eq_true.2 fun c hc => Decimal.isDigit_of_mem_digits hc
  have hzero : (Decimal.digits n).head? ≠ some '0' ∨ (Decimal.digits n).length = 1 := by
    by_cases hpos : 0 < n
    · exact .inl (Decimal.head?_digits_ne_zero hpos)
    · rw [Nat.eq_zero_of_not_pos hpos]
      exact .inr (by rw [Decimal.digits_of_lt (by decide), List.length_singleton])
  simpa [isNumeral, Decimal.digits_ne_nil] using ⟨List.all_eq_true.1 hdigits, hzero⟩

/-- A number is read back if it is not too great. -/
theorem Document.natural?_ofNat {n : Nat} (hn : n ≤ maxNatural) : (ofNat n).natural? = some n := by
  have hdigits : (Decimal.digits n).all Char.isDigit = true :=
    List.all_eq_true.2 fun c hc => Decimal.isDigit_of_mem_digits hc
  simp [natural?, ofNat, Decimal.digits_ne_nil, Decimal.ofDigits_digits, hdigits, hn]

/-- A text is read back. -/
@[simp] theorem Document.text?_ofString (s : String) : (ofString s).text? = some s := by
  simp [text?, ofString, string?]

/-- The document of some characters is read as the text they make. -/
theorem Document.text?_string (s : List Char) :
    (Document.string s).text? = some (String.ofList s) := rfl

/-! ## Places -/

namespace Location

variable {a : Location}

/-- Whether a place **fits into a document**: its path is text, and its numbers have 64 bits. -/
structure Fits (a : Location) : Prop where
  file : ∃ s, a.file.bytes = Utf8.encode s
  line : a.line ≤ maxNatural
  column : a.column ≤ maxNatural
  offset : a.offset ≤ maxNatural
  length : a.length ≤ maxNatural

/-- A location that fits is written as a document, from which it is read back. -/
theorem exists_toDocument? (h : a.Fits) : ∃ d, a.toDocument? = some d ∧
    ofDocument? .json d = some a ∧ d.holdsThroughout Json.isWritten = true := by
  obtain ⟨s, hs⟩ := h.file
  have hfile : Path.ofString (String.ofList s) = a.file := by
    rw [Path.ofString, String.toList_ofList, ← hs]
  refine ⟨_, by rw [toDocument?, Utf8.decode?_eq_some_iff.2 hs, Option.map_some], ?_, ?_⟩
  · have hfields :
        fields? .json fieldNames (.table [member "file" (.string s), member "line" (ofNat a.line),
        member "column" (ofNat a.column), member "offset" (ofNat a.offset),
        member "length" (ofNat a.length)]) =
        some [some (.string s), some (ofNat a.line), some (ofNat a.column), some (ofNat a.offset),
          some (ofNat a.length)] := rfl
    rw [ofDocument?, hfields]
    simp [text?_string, natural?_ofNat, h.line, h.column, h.offset, h.length, hfile]
  · rw [holdsThroughout_table]
    simp [member, ofNat, holdsThroughout, Json.isWritten, Json.isNumeral_digits]

end Location

/-! ## Violations -/

namespace Violation

variable {v : Violation}

/-- A suggestion is written even if there is none, and read back either way. -/
theorem orDefault_suggestionDocument (s : Option String) :
    orDefault none (optional? (suggestion? .json)) (some (suggestionDocument s)) = some s := by
  cases s with
  | none => rfl
  | some s =>
    have hfields : fields? .json ["message"] (.table [member "message" (ofString s)]) =
        some [some (ofString s)] := rfl
    simp [orDefault, suggestionDocument, optional?, suggestion?, hfields]

/-- The reference to a document is left out if there is none, and then the default stands for it. -/
theorem orDefault_docRef (doc : Option String) :
    orDefault none (optional? text?) (doc.map ofString) = some doc := by
  cases doc with
  | none => rfl
  | some doc =>
    have hopt : optional? text? (ofString doc) = ((ofString doc).text?).map some := rfl
    simp [orDefault, hopt]

/-- A suggestion can be written, and so can none. -/
theorem isWritten_suggestionDocument (s : Option String) :
    (suggestionDocument s).holdsThroughout Json.isWritten = true := by
  cases s <;> rfl

/-- A violation whose location fits is written as a document, from which it is read back. -/
theorem exists_toDocument? (h : v.location.Fits) : ∃ d, v.toDocument? = some d ∧
    ofDocument? .json d = some v ∧ d.holdsThroughout Json.isWritten = true := by
  obtain ⟨location, hto, hof, hwritten⟩ := Location.exists_toDocument? h
  refine ⟨_, by rw [toDocument?, hto, Option.map_some], ?_, ?_⟩
  · have hfields : fields? .json fieldNames (.table ([member "code" (.ofString v.code),
        member "rule" (.ofString v.rule), member "severity" (.ofString v.severity.word),
        member "location" location, member "message" (.ofString v.message),
        member "suggestion" (suggestionDocument v.suggestion)] ++
          (v.docRef.map fun doc => member "doc_ref" (.ofString doc)).toList)) =
        some [some (.ofString v.code), some (.ofString v.rule),
          some (.ofString v.severity.word), some location, some (.ofString v.message),
          some (suggestionDocument v.suggestion), v.docRef.map ofString] := by
      cases v.docRef <;> rfl
    have hseverity : severity? .json (.ofString v.severity.word) = some v.severity :=
      Severity.ofWord?_word v.severity
    rw [ofDocument?, hfields]
    simp [hasItems, hseverity, hof, orDefault_suggestionDocument, orDefault_docRef]
  · rw [holdsThroughout_table]
    intro m hm
    rcases List.mem_append.1 hm with hm | hm
    · simp only [List.mem_cons, List.not_mem_nil, or_false] at hm
      rcases hm with rfl | rfl | rfl | rfl | rfl | rfl
      · rfl
      · rfl
      · rfl
      · exact hwritten
      · rfl
      · exact isWritten_suggestionDocument v.suggestion
    · obtain ⟨doc, -, rfl⟩ := Option.map_eq_some_iff.1 (Option.mem_toList.1 hm)
      rfl

end Violation

/-! ## Reports -/

namespace Report

variable {r : Report}

/-- Whether a report **fits into a document**: the places in it do, and so does the number of the
files. -/
structure Fits (r : Report) : Prop where
  location : ∀ v ∈ r.violations, v.location.Fits
  filesChecked : r.filesChecked ≤ maxNatural

/-- Violations whose places fit are documents that are read back, one by one. -/
theorem exists_mapM_toDocument? {vs : List Violation} (h : ∀ v ∈ vs, v.location.Fits) :
    ∃ ds, vs.mapM Violation.toDocument? = some ds ∧
      ds.mapM (Violation.ofDocument? .json) = some vs ∧
      ∀ d ∈ ds, d.holdsThroughout Json.isWritten = true := by
  simp only [mapM_eq_some_iff]
  induction vs with
  | nil => exact ⟨[], .nil, .nil, by simp⟩
  | cons v vs ih =>
    obtain ⟨hv, hvs⟩ := List.forall_mem_cons.1 h
    obtain ⟨d, hto, hof, hwritten⟩ := Violation.exists_toDocument? hv
    obtain ⟨ds, htos, hofs, hwrittens⟩ := ih hvs
    exact ⟨d :: ds, .cons hto htos, .cons hof hofs, List.forall_mem_cons.2 ⟨hwritten, hwrittens⟩⟩

/-- A report that fits is written as a document, from which it is read back. -/
theorem exists_toDocument? (h : r.Fits) : ∃ d, r.toDocument? = some d ∧
    ofDocument? .json d = some r ∧ d.holdsThroughout Json.isWritten = true := by
  obtain ⟨ds, hto, hof, hwritten⟩ := exists_mapM_toDocument? h.location
  refine ⟨_, by rw [toDocument?, hto, Option.map_some], ?_, ?_⟩
  · have hfields : fields? .json fieldNames (.table [member "violations" (.list ds),
        member "files_checked" (ofNat r.filesChecked)]) =
        some [some (.list ds), some (ofNat r.filesChecked)] := rfl
    rw [ofDocument?, hfields]
    simp [hof, natural?_ofNat h.filesChecked]
  · rw [holdsThroughout_table]
    intro m hm
    simp only [List.mem_cons, List.not_mem_nil, or_false] at hm
    rcases hm with rfl | rfl
    · exact holdsThroughout_list.2 hwritten
    · exact Json.isNumeral_digits r.filesChecked

/-- **Reports are read back** from JSON as they were: a report that fits is a document, which is the
report again when it is read from any layout, and so it is from the lines that are printed for it;
likewise for a single violation. -/
theorem readBack_of_fits :
    (∀ r : Report, r.Fits → ∃ d, r.toDocument? = some d ∧
      (∀ l : Json.Layout, (Json.read (Json.write l d)).bind (ofDocument? .json) = some r) ∧
      r.printJson.error = none ∧
      (Json.read (String.join (r.printJson.lines.map (· ++ "\n"))).toList).bind
        (ofDocument? .json) = some r) ∧
    ∀ v : Violation, v.location.Fits → ∃ d, v.toDocument? = some d ∧
      ∀ l : Json.Layout,
        (Json.read (Json.write l d)).bind (Violation.ofDocument? .json) = some v := by
  constructor
  · intro r h
    obtain ⟨d, hto, hof, hwritten⟩ := exists_toDocument? h
    have hprint : r.printJson = ⟨[String.ofList (Json.write (.lines 0) d)], none⟩ := by
      rw [printJson, hto]
    refine ⟨d, hto, fun l => ?_, by rw [hprint], ?_⟩
    · rw [Json.read_write hwritten l, Option.bind_some, hof]
    · have hread : Json.read (Json.write (.lines 0) d ++ ['\n']) = some d :=
        Json.read_write_append hwritten (.lines 0) (List.forall_mem_singleton.2 rfl)
      rw [hprint]
      simp [hread, hof]
  · intro v h
    obtain ⟨d, hto, hof, hwritten⟩ := Violation.exists_toDocument? h
    refine ⟨d, hto, fun l => ?_⟩
    rw [Json.read_write hwritten l, Option.bind_some, hof]

/-- A report with control characters, quotes and characters of every size in its texts, with the
largest numbers, and with its suggestion and its reference to a document there or not. -/
def spelledOut : Report where
  violations :=
    [{ code := "IMP001", rule := "a \"rule\" \\ \x00\x1f\x7f", severity := .warning,
       location := ⟨Path.ofString "src/\u00fc\t\u2028𝄞.ts", maxNatural, 0, maxNatural, 1⟩,
       message := "\x08\x0c\r\n/", suggestion := none, docRef := some "" },
     { code := "", rule := "\ufeff", severity := .error,
       location := ⟨⟨[]⟩, 1, maxNatural, 0, maxNatural⟩, message := "", suggestion :=
         some "\x01", docRef := none }]
  filesChecked := maxNatural

/-- A report with escapes in its texts is read back from its lines, and so is each of its
violations. -/
theorem readBack_spelledOut : spelledOut.Fits ∧
    (Json.read (String.join (spelledOut.printJson.lines.map (· ++ "\n"))).toList).bind
      (ofDocument? .json) =
      some spelledOut ∧
    ∀ v ∈ spelledOut.violations, ∃ d, v.toDocument? = some d ∧
      (Json.read (Json.write .compact d)).bind (Violation.ofDocument? .json) = some v := by
  have hnumber : 1 ≤ maxNatural := by decide
  have hfits : spelledOut.Fits := by
    refine ⟨List.forall_mem_cons.2 ⟨?_, List.forall_mem_singleton.2 ?_⟩, Nat.le_refl _⟩
    · exact ⟨⟨_, rfl⟩, Nat.le_refl _, Nat.zero_le _, Nat.le_refl _, hnumber⟩
    · exact ⟨⟨[], rfl⟩, hnumber, Nat.le_refl _, Nat.zero_le _, Nat.le_refl _⟩
  obtain ⟨-, -, -, -, hprinted⟩ := readBack_of_fits.1 spelledOut hfits
  refine ⟨hfits, hprinted, fun v hv => ?_⟩
  obtain ⟨d, hto, hread⟩ := readBack_of_fits.2 v (hfits.location v hv)
  exact ⟨d, hto, hread .compact⟩

end Report

end ImportLint

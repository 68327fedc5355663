import ImportLint.Proofs.Document
import ImportLint.Proofs.Toml.Quoted
import ImportLint.Toml.Reader
import Mathlib.Algebra.Ring.Nat

/-!
# Statements of TOML as they are written

A text in which each line is one statement, the header of an item or the assignment of texts or
lists of texts to a bare key, is read as these statements.
-/

namespace ImportLint.Toml

/-! ## Values -/

mutual

/-- A text or a list of values, each with a comma after it. -/
def writeValue : Document → List Char
  | .string s => quote s
  | .list ds => '[' :: writeItems ds ++ [']']
  | _ => []

/-- The items of a list. -/
def writeItems : List Document → List Char
  | [] => []
  | d :: ds => writeValue d ++ ',' :: writeItems ds

end

/-- Whether a document is made of texts and lists alone. -/
inductive IsTextual : Document → Prop where
  | string (s : List Char) : IsTextual (.string s)
  | list (ds : List Document) (h : ∀ d ∈ ds, IsTextual d) : IsTextual (.list ds)

/-- What holds of texts holds throughout. -/
theorem IsTextual.holdsThroughout {d : Document} (hd : IsTextual d) {p : Document → Bool}
    (hp : ∀ s, p (.string s) = true) : d.holdsThroughout p = true := by
  induction hd with
  | string s => exact hp s
  | list ds _ ih => exact Document.holdsThroughout_list.2 ih

/-- What ends a gap: a character that is no blank, no line break and no comment. -/
def endsGap (c : Char) : Bool := !isBlank c && c != '#' && c != '\n' && c != '\r'

/-- A character ends a gap exactly if it is no blank, no comment mark and no line break. -/
theorem endsGap_iff {c : Char} :
    endsGap c = true ↔ isBlank c = false ∧ c ≠ '#' ∧ c ≠ '\n' ∧ c ≠ '\r' := by
  simp [endsGap, and_assoc]

/-- Nothing is skipped in front of a character that is no blank. -/
theorem skipBlanks_cons {c : Char} (hc : isBlank c = false) (s : List Char) :
    skipBlanks (c :: s) = c :: s := by
  simp [skipBlanks, hc]

/-- Nothing is skipped in front of a character that ends a gap. -/
theorem skipGap_cons {c : Char} (hc : endsGap c = true) (s : List Char) :
    skipGap (c :: s) = some (c :: s) := by
  obtain ⟨hblank, hcomment, hline, hreturn⟩ := endsGap_iff.1 hc
  rw [skipGap, skipLines, skipBlanks_cons hblank]
  split
  · next h => exact absurd (List.cons.inj h).1 hcomment
  · next h => exact absurd (List.cons.inj h).1 hline
  · next h => exact absurd (List.cons.inj h).1 hreturn
  · rfl

/-- A written value starts with a quote or a bracket, so that it ends the gap before it and is taken
for no end of a list. -/
theorem exists_writeValue_eq_cons {d : Document} (hd : IsTextual d) :
    ∃ c cs, writeValue d = c :: cs ∧ endsGap c = true ∧ c ≠ ']' := by
  cases hd with
  | string s => exact ⟨_, _, by rw [writeValue, quote]; rfl, by decide⟩
  | list ds => exact ⟨_, _, by rw [writeValue]; rfl, by decide⟩

/-- Whether a value is read back, within a limit of nesting, where no quote follows it. -/
def IsReadBack (limit : Nat) (d : Document) : Prop :=
  ∀ r : List Char, r.head? ≠ some '"' → value limit (writeValue d ++ r) = some (d, r)

/-- A value before a comma is followed by other items. -/
theorem items_next {v : List Char → Option (Document × List Char)} {n : Nat} {c : Char}
    {s t r rest : List Char} {d : Document} {ds : List Document}
    (hgap : endsGap c = true) (hend : c ≠ ']') (hd : v (c :: s) = some (d, t))
    (ht : skipGap t = some (',' :: r)) (hr : items v n r = some (ds, rest)) :
    items v (n + 1) (c :: s) = some (d :: ds, rest) := by
  rw [items, skipGap_cons hgap, Option.bind_some]
  split
  · next h => exact absurd (List.cons.inj h).1 hend
  · rw [hd, Option.bind_some, ht, Option.bind_some]
    simp only [hr, Option.map_some]

/-- The items of a list are read back, up to its end. -/
theorem items_writeItems {limit : Nat} {ds : List Document}
    (hds : ∀ d ∈ ds, IsTextual d ∧ IsReadBack limit d) {n : Nat}
    (hn : (writeItems ds).length < n) (r : List Char) :
    items (value limit) n (writeItems ds ++ ']' :: r) = some (ds, r) := by
  -- By induction on the items. The bound counts the characters to be read.
  induction ds generalizing n with
  | nil =>
    obtain ⟨n, rfl⟩ : ∃ k, n = k + 1 := ⟨n - 1, by omega⟩
    rw [writeItems, List.nil_append, items, skipGap_cons (by decide)]
    rfl
  | cons d ds ih =>
    obtain ⟨n, rfl⟩ : ∃ k, n = k + 1 := ⟨n - 1, by omega⟩
    obtain ⟨htextual, hread⟩ := hds d List.mem_cons_self
    obtain ⟨c, cs, hc, hgap, hend⟩ := exists_writeValue_eq_cons htextual
    simp only [writeItems, List.length_append, List.length_cons] at hn
    have hrest := ih (fun x hx => hds x (List.mem_cons_of_mem d hx)) (n := n) (by omega)
    have hvalue := hread (',' :: (writeItems ds ++ ']' :: r)) (by simp)
    rw [hc, List.cons_append] at hvalue
    have hitems := items_next hgap hend hvalue (skipGap_cons (by decide) _) hrest
    simpa [writeItems, hc] using hitems

/-- **A written value is read back** within the limit of nesting. -/
theorem isReadBack {d : Document} (hd : IsTextual d) {limit : Nat} (hdepth : d.depth ≤ limit) :
    IsReadBack limit d := by
  -- Each list takes one off the limit.
  induction hd generalizing limit with
  | string s =>
    intro r hr
    rw [writeValue, quote_append]
    unfold value
    simp only
    rw [← quote_append, quoted_quote_append s hr, Option.map_some]
  | list ds htextual ih =>
    intro r hr
    obtain ⟨limit, rfl⟩ : ∃ k, limit = k + 1 := ⟨limit - 1, by rw [Document.depth] at hdepth; omega⟩
    rw [Document.depth_list_le_iff] at hdepth
    have hitems :
        items (value limit) ((writeItems ds ++ ']' :: r).length + 1) (writeItems ds ++ ']' :: r) =
        some (ds, r) := by
      refine items_writeItems (fun d hd => ⟨htextual d hd, ih d hd (hdepth d hd)⟩) ?_ r
      rw [List.length_append]
      omega
    have htext : writeValue (.list ds) ++ r = '[' :: (writeItems ds ++ ']' :: r) := by
      simp [writeValue]
    rw [htext]
    unfold value
    simp only
    rw [hitems, Option.map_some]

/-! ## Lines -/

/-- Whether a key may stand without quotes. -/
def isBareKey (k : Key) : Bool := !k.isEmpty && k.all isKeyChar

/-- The header of an item of a list of tables. -/
def writeHeader (k : Key) : List Char := '[' :: '[' :: k ++ [']', ']']

/-- A key and its value. -/
def writeAssignment (k : Key) (d : Document) : List Char := k ++ ' ' :: '=' :: ' ' :: writeValue d

/-- The characters of bare keys are no blanks. -/
theorem not_isBlank_of_isKeyChar {c : Char} (h : isKeyChar c = true) : isBlank c = false := by
  rw [← Bool.not_eq_true]
  intro hblank
  simp only [isBlank, Bool.or_eq_true, beq_iff_eq] at hblank
  rcases hblank with rfl | rfl <;> cases h

section Key

variable {k : Key} (hk : isBareKey k = true)

include hk

/-- A bare key has a first character. -/
theorem exists_eq_cons_of_isBareKey : ∃ c cs, k = c :: cs ∧ isKeyChar c = true := by
  obtain ⟨c, cs, rfl⟩ : ∃ c cs, k = c :: cs := List.exists_cons_of_ne_nil (by rintro rfl; cases hk)
  simp only [isBareKey, List.all_cons, Bool.and_eq_true] at hk
  exact ⟨c, cs, rfl, hk.2.1⟩

/-- A bare key is read back. -/
theorem simpleKey_append {r : List Char} (hr : ∀ c ∈ r.head?, isKeyChar c = false) :
    simpleKey (k ++ r) = some (k, r) := by
  obtain ⟨c, cs, hc, hkey⟩ := exists_eq_cons_of_isBareKey hk
  have hall : ∀ c ∈ k, isKeyChar c = true := by
    simp only [isBareKey, Bool.and_eq_true, List.all_eq_true] at hk
    exact hk.2
  have hne {b : Char} (hb : isKeyChar b = false) (r' : List Char) : k ++ r ≠ b :: r' := by
    rintro h
    rw [hc] at h
    obtain rfl := (List.cons.inj h).1
    rw [hb] at hkey
    cases hkey
  -- A bare key starts with neither quote.
  unfold simpleKey
  split
  · next h => exact absurd h (hne (by decide) _)
  · next h => exact absurd h (hne (by decide) _)
  · rw [takeWhile_append_of_ends hall hr, dropWhile_append_of_ends hall hr, if_pos]
    rw [hc]
    exact hkey

/-- Nothing is skipped in front of a bare key. -/
theorem skipBlanks_append (r : List Char) : skipBlanks (k ++ r) = k ++ r := by
  obtain ⟨c, cs, rfl, hkey⟩ := exists_eq_cons_of_isBareKey hk
  exact skipBlanks_cons (not_isBlank_of_isKeyChar hkey) _

/-- A bare key is read back where neither it nor a dotted key goes on. -/
theorem keyPath_append {r t : List Char} {c : Char} (hr : ∀ c ∈ r.head?, isKeyChar c = false)
    (ht : skipBlanks r = c :: t) (hdot : c ≠ '.') : keyPath (k ++ r) = some (⟨[], k⟩, c :: t) := by
  have hkeys : keys maxNesting (k ++ r) = some ([k], c :: t) := by
    rw [maxNesting, keys, skipBlanks_append hk, simpleKey_append hk hr, Option.bind_some, ht]
    split
    · next h => exact absurd (List.cons.inj h).1 hdot
    · rfl
  rw [keyPath, hkeys]
  rfl

/-- A header is read as the start of an item. -/
theorem statement_writeHeader (r : List Char) :
    statement (writeHeader k ++ r) = some (.item ⟨[], k⟩, r) := by
  have hpath : keyPath (k ++ ']' :: ']' :: r) = some (⟨[], k⟩, ']' :: ']' :: r) :=
    keyPath_append hk (by rintro _ ⟨⟩; decide) (skipBlanks_cons (by decide) _) (by decide)
  have htext : writeHeader k ++ r = '[' :: '[' :: (k ++ ']' :: ']' :: r) := by simp [writeHeader]
  rw [htext, statement, header, hpath]
  rfl

/-- A line with a key and a value is read as the assignment of one to the other. -/
theorem statement_writeAssignment {d : Document} (hd : IsTextual d) (hdepth : d.depth ≤ maxNesting)
    (r : List Char) :
    statement (writeAssignment k d ++ '\n' :: r) = some (.assign ⟨[], k⟩ d, '\n' :: r) := by
  have hpath (s : List Char) : keyPath (k ++ ' ' :: '=' :: s) = some (⟨[], k⟩, '=' :: s) :=
    keyPath_append hk (by rintro _ ⟨⟩; decide) rfl (by decide)
  have hvalue : value maxNesting (skipBlanks (' ' :: (writeValue d ++ '\n' :: r))) =
      some (d, '\n' :: r) := by
    obtain ⟨c, cs, hc, hgap, -⟩ := exists_writeValue_eq_cons hd
    have hskip : skipBlanks (' ' :: (writeValue d ++ '\n' :: r)) = writeValue d ++ '\n' :: r := by
      rw [hc, List.cons_append]
      exact skipBlanks_cons (endsGap_iff.1 hgap).1 _
    rw [hskip]
    exact isReadBack hd hdepth _ (by simp)
  have htext : writeAssignment k d ++ '\n' :: r = k ++ ' ' :: '=' :: ' ' ::
      (writeValue d ++ '\n' :: r) := by
    simp [writeAssignment]
  have hassign : assignment (value maxNesting) (writeAssignment k d ++ '\n' :: r) =
      some ((⟨[], k⟩, d), '\n' :: r) := by
    rw [htext, assignment, hpath, Option.bind_some]
    simp only [hvalue, Option.map_some]
    rfl
  obtain ⟨c, cs, hc, hkey⟩ := exists_eq_cons_of_isBareKey hk
  -- A bare key does not start with a bracket, so the line is not taken for a header.
  have hne (s : List Char) : writeAssignment k d ++ '\n' :: r ≠ '[' :: s := by
    intro h
    rw [htext, hc] at h
    obtain rfl := (List.cons.inj h).1
    cases hkey
  unfold statement
  split
  · next h => exact absurd h (hne _)
  · next h => exact absurd h (hne _)
  · rw [hassign, Option.map_some]

end Key

/-! ## Texts -/

/-- Reading a statement that stands on a line of its own. -/
theorem statements_cons {line rest : List Char} {st : Statement} {c : Char} {cs : List Char}
    (hline : line = c :: cs) (hc : endsGap c = true)
    (hst : statement (line ++ '\n' :: rest) = some (st, '\n' :: rest)) (n : Nat) :
    statements (n + 1) (line ++ '\n' :: rest) = (statements n rest).map (st :: ·) := by
  obtain ⟨hblank, hcomment, hbreak, hreturn⟩ := endsGap_iff.1 hc
  have hend : endOfLine? ('\n' :: rest) = some rest := rfl
  rw [hline, List.cons_append] at hst ⊢
  rw [statements, skipBlanks_cons hblank]
  split
  · next h => cases h
  · next h => exact absurd (List.cons.inj h).1 hcomment
  · next h => exact absurd (List.cons.inj h).1 hbreak
  · next h => exact absurd (List.cons.inj h).1 hreturn
  · rw [hst, Option.bind_some, hend, Option.bind_some]

/-- The lines of a table with texts and lists: its header, and its members. -/
def writeItem (k : Key) (ms : List (Key × Document)) : List Char :=
  writeHeader k ++ '\n' :: ms.flatMap fun m => writeAssignment m.1 m.2 ++ ['\n']

/-- The statements that the lines of a table are. -/
def itemStatements (k : Key) (ms : List (Key × Document)) : List Statement :=
  .item ⟨[], k⟩ :: ms.map fun m => .assign ⟨[], m.1⟩ m.2

/-- Whether the members of a table can be written. -/
def AreWritten (ms : List (Key × Document)) : Prop :=
  ∀ m ∈ ms, isBareKey m.1 = true ∧ IsTextual m.2 ∧ m.2.depth ≤ maxNesting

/-- The lines of members are read as their assignments, each in a step of its own. -/
theorem statements_writeAssignments {ms : List (Key × Document)} (hms : AreWritten ms) (n : Nat)
    (rest : List Char) :
    statements (n + ms.length) ((ms.flatMap fun m => writeAssignment m.1 m.2 ++ ['\n']) ++ rest) =
      (statements n rest).map ((ms.map fun m => .assign ⟨[], m.1⟩ m.2) ++ ·) := by
  -- By induction on the members, with a step for each line.
  induction ms with
  | nil => simp
  | cons m ms ih =>
    obtain ⟨hkey, htextual, hdepth⟩ := hms m List.mem_cons_self
    obtain ⟨c, cs, hc, hkeyChar⟩ := exists_eq_cons_of_isBareKey hkey
    have hline : writeAssignment m.1 m.2 = c :: (cs ++ ' ' :: '=' :: ' ' :: writeValue m.2) := by
      rw [writeAssignment, hc, List.cons_append]
    have hgap : endsGap c = true := by
      refine endsGap_iff.2 ⟨?_, ?_, ?_, ?_⟩
      · exact not_isBlank_of_isKeyChar hkeyChar
      all_goals (rintro rfl; cases hkeyChar)
    have htext : ((m :: ms).flatMap fun m => writeAssignment m.1 m.2 ++ ['\n']) ++ rest =
        writeAssignment m.1 m.2 ++ '\n' ::
          ((ms.flatMap fun m => writeAssignment m.1 m.2 ++ ['\n']) ++ rest) := by
      simp
    rw [htext, List.length_cons, ← Nat.add_assoc, statements_cons hline hgap
      (statement_writeAssignment hkey htextual hdepth _), ih fun x hx =>
        hms x (List.mem_cons_of_mem m hx),
      Option.map_map]
    rfl

/-- The lines of a table are read as its statements. -/
theorem statements_writeItem {k : Key} (hk : isBareKey k = true) {ms : List (Key × Document)}
    (hms : AreWritten ms) (n : Nat) (rest : List Char) :
    statements (n + (ms.length + 1)) (writeItem k ms ++ rest) =
      (statements n rest).map (itemStatements k ms ++ ·) := by
  have htext : writeItem k ms ++ rest = writeHeader k ++ '\n' ::
      ((ms.flatMap fun m => writeAssignment m.1 m.2 ++ ['\n']) ++ rest) := by
    simp [writeItem]
  have hline : writeHeader k = '[' :: ('[' :: k ++ [']', ']']) := rfl
  rw [htext, ← Nat.add_assoc, statements_cons hline (by decide) (statement_writeHeader hk _),
    statements_writeAssignments hms, Option.map_map]
  rfl

/-- There are no more lines than characters. -/
theorem length_lt_writeItem (k : Key) (ms : List (Key × Document)) :
    ms.length < (writeItem k ms).length := by
  have hlines : ms.length ≤ (ms.flatMap fun m => writeAssignment m.1 m.2 ++ ['\n']).length := by
    induction ms with
    | nil => exact Nat.le_refl _
    | cons m ms ih =>
      simp only [List.flatMap_cons, List.length_append, List.length_cons, List.length_nil]
      omega
  rw [writeItem, List.length_append, List.length_cons]
  omega

/-- Tables have no more lines than characters. -/
theorem sum_lines_le (k : Key) (tables : List (List (Key × Document))) :
    (tables.map fun ms => ms.length + 1).sum ≤ (tables.flatMap (writeItem k)).length := by
  induction tables with
  | nil => exact Nat.le_refl _
  | cons ms tables ih =>
    have hms := length_lt_writeItem k ms
    rw [List.map_cons, List.sum_cons, List.flatMap_cons, List.length_append]
    omega

/-- **A text of tables is read as their headers and members**, table by table. -/
theorem statements_writeItems {k : Key} (hk : isBareKey k = true)
    {tables : List (List (Key × Document))} (htables : ∀ ms ∈ tables, AreWritten ms) :
    statements
      ((tables.flatMap (writeItem k)).length + 1) (dropMark (tables.flatMap (writeItem k))) =
      some (tables.flatMap (itemStatements k)) := by
  have hmark : dropMark (tables.flatMap (writeItem k)) = tables.flatMap (writeItem k) := by
    cases tables <;> rfl
  rw [hmark]
  -- Each line takes one step, and a line has at least one character.
  have hsteps (n : Nat) : statements (n + 1 + (tables.map fun ms => ms.length + 1).sum)
      (tables.flatMap (writeItem k)) = some (tables.flatMap (itemStatements k)) := by
    induction tables with
    | nil => rfl
    | cons ms tables ih =>
      have hrest :=
        ih (fun x hx => htables x (List.mem_cons_of_mem ms hx)) (by cases tables <;> rfl)
      rw [List.flatMap_cons, List.map_cons, List.sum_cons,
        Nat.add_comm (ms.length + 1), ← Nat.add_assoc,
        statements_writeItem hk (htables ms List.mem_cons_self), hrest,
        Option.map_some, List.flatMap_cons]
  obtain ⟨n, hn⟩ := Nat.exists_eq_add_of_le (sum_lines_le k tables)
  rw [hn, Nat.add_comm _ n, Nat.add_right_comm]
  exact hsteps n

end ImportLint.Toml

import ImportLint.Json.Reader
import ImportLint.Json.Writer
import ImportLint.Proofs.Document
import ImportLint.Text.Pieces
import Mathlib.Data.List.TakeWhile

/-!
# Reading what was written in JSON

A document without numbers that have a point or a sign, and without what JSON has no form for, is
read back from how it is written, in any layout. What follows it in the text is left, unless it
would go on a number.
-/

namespace ImportLint.Json

/-! ## Strings -/

/-- The number of a control character is read back from its four digits, of which two are always
zero. -/
theorem hexNumber?_control {n : Nat} (hn : n < 0x20) :
    hexNumber? ['0', '0', hexDigit (n / 16), hexDigit (n % 16)] = some n := by
  revert n
  decide +kernel

/-- A character is escaped by a letter, as a control character by its number, or not at all. -/
theorem escape_cases (c : Char) :
    (∃ letter, letter ≠ '/' ∧ shortEscape? letter = some c ∧ escape c = ['\\', letter]) ∨
    (c.toNat < 0x20 ∧
      escape c = ['\\', 'u', '0', '0', hexDigit (c.toNat / 16), hexDigit (c.toNat % 16)]) ∨
    (c ≠ '"' ∧ c ≠ '\\' ∧ 0x20 ≤ c.toNat ∧ escape c = [c]) := by
  by_cases hshort : c ∈ ['"', '\\', '\x08', '\x0c', '\n', '\r', '\t']
  · simp only [List.mem_cons, List.not_mem_nil, or_false] at hshort
    rcases hshort with rfl | rfl | rfl | rfl | rfl | rfl | rfl <;>
      exact .inl ⟨_, by decide, rfl, rfl⟩
  · simp only [List.mem_cons, List.not_mem_nil, or_false, not_or] at hshort
    obtain ⟨hquote, hbackslash, hb, hf, hn, hr, ht⟩ := hshort
    rw [escape, if_neg hquote, if_neg hbackslash, if_neg hb, if_neg hf, if_neg hn,
      if_neg hr, if_neg ht]
    by_cases hcontrol : c.toNat < 0x20
    · exact .inr (.inl ⟨hcontrol, if_pos hcontrol⟩)
    · exact .inr (.inr ⟨hquote, hbackslash, Nat.le_of_not_lt hcontrol, if_neg hcontrol⟩)

section

attribute [local simp] stringUnits

/-- A short escape is read as the character its letter stands for. -/
theorem stringUnits_short {letter c : Char} (h : shortEscape? letter = some c) (r : List Char) :
    stringUnits ('\\' :: letter :: r) = (stringUnits r).map fun p => (.inl c :: p.1, p.2) := by
  have hletter : letter ≠ 'u' := by
    rintro rfl
    cases h
  simp [h, hletter]

/-- A numbered escape is read as the control character of that number, which is no half of a
surrogate pair. -/
theorem stringUnits_control {c : Char} (hcontrol : c.toNat < 0x20) (r : List Char) :
    stringUnits
      ('\\' :: 'u' :: '0' :: '0' :: hexDigit (c.toNat / 16) :: hexDigit (c.toNat % 16) :: r) =
      (stringUnits r).map fun p => (.inl c :: p.1, p.2) := by
  have hhalf : ¬ (0xD800 ≤ c.toNat ∧ c.toNat ≤ 0xDFFF) := by omega
  simp [hexNumber?_control hcontrol, hhalf]

/-- A character that needs no escape is read as it is. -/
theorem stringUnits_cons {c : Char} (hquote : c ≠ '"') (hbackslash : c ≠ '\\')
    (hcontrol : 0x20 ≤ c.toNat) (r : List Char) :
    stringUnits (c :: r) = (stringUnits r).map fun p => (.inl c :: p.1, p.2) := by
  simp [hbackslash, Nat.not_lt.2 hcontrol]

end

/-- A character is read back from its escape. -/
theorem stringUnits_escape (c : Char) (r : List Char) :
    stringUnits (escape c ++ r) = (stringUnits r).map fun p => (.inl c :: p.1, p.2) := by
  rcases escape_cases c with
    ⟨letter, -, hletter, h⟩ | ⟨hcontrol, h⟩ | ⟨hquote, hbackslash, hcontrol, h⟩
  all_goals rw [h]
  · exact stringUnits_short hletter r
  · exact stringUnits_control hcontrol r
  · exact stringUnits_cons hquote hbackslash hcontrol r

/-- The characters of a string are read back from their escapes, up to the closing quote. -/
theorem stringUnits_flatMap_escape (s r : List Char) :
    stringUnits (s.flatMap escape ++ '"' :: r) = some (s.map .inl, r) := by
  induction s with
  | nil => rfl
  | cons c s ih =>
    rw [List.flatMap_cons, List.append_assoc, stringUnits_escape, ih]
    rfl

/-- Characters without surrogate halves among them are a text. -/
theorem textOfUnits?_map_inl (s : List Char) : textOfUnits? (s.map .inl) = some s := by
  induction s with
  | nil => rfl
  | cons c s ih => rw [List.map_cons, textOfUnits?, ih, Option.map_some]

/-- A quoted text starts with its opening quote. -/
theorem quote_append (s r : List Char) : quote s ++ r = '"' :: (s.flatMap escape ++ '"' :: r) := by
  simp [quote]

/-- A key is read back, with the colon after it. -/
theorem key_quote_append (k : List Char) (l : Layout) (r : List Char) :
    key (quote k ++ (l.colon ++ r)) = some (k, l.colon.tail ++ r) := by
  rw [quote_append, key, stringUnits_flatMap_escape, Option.bind_some,
    textOfUnits?_map_inl, Option.bind_some]
  cases l <;> rfl

/-! ## Numbers -/

/-- Whether digits spell a natural number: there are some, and no idle zero ahead. -/
def isNumeral (ds : List Char) : Bool :=
  !ds.isEmpty && ds.all Char.isDigit && (ds.head? != some '0' || ds.length == 1)

/-- Whether a text does not go on a number. -/
def EndsNumber (r : List Char) : Prop :=
  ∀ c ∈ r.head?, c.isDigit = false ∧ c ≠ '.' ∧ c ≠ 'e' ∧ c ≠ 'E'

section

variable {r : List Char} (hr : EndsNumber r)

include hr

/-- A text that does not go on a number starts with no fraction. -/
theorem fractionPart_of_endsNumber : fractionPart r = some ([], r) := by
  unfold fractionPart
  split
  · exact absurd rfl (hr '.' rfl).2.1
  · rfl

/-- A text that does not go on a number starts with no exponent. -/
theorem exponentPart_of_endsNumber : exponentPart r = some ([], r) := by
  cases r with
  | nil => rfl
  | cons c r =>
    obtain ⟨-, -, he, hE⟩ := hr c rfl
    simp [exponentPart, he, hE]

/-- The digits of a numeral are read as an integer part. -/
theorem integerPart_append {ds : List Char} (hds : isNumeral ds = true) :
    integerPart (ds ++ r) = some (ds, r) := by
  obtain ⟨⟨hne, hdigits⟩, hzero⟩ : (ds ≠ [] ∧ ∀ c ∈ ds, c.isDigit = true) ∧
      (ds.head? ≠ some '0' ∨ ds.length = 1) := by simpa [isNumeral] using hds
  have hend : ∀ c ∈ r.head?, c.isDigit = false := fun c hc => (hr c hc).1
  obtain ⟨c, cs, rfl⟩ := List.exists_cons_of_ne_nil hne
  -- A zero in front is the only digit.
  by_cases hc : c = '0'
  · subst hc
    obtain rfl : cs = [] := by simpa using hzero
    have hhead : r.head?.any Char.isDigit = false := by
      cases r with
      | nil => rfl
      | cons c r => exact hend c rfl
    simp [integerPart, hhead]
  · have hcs : ∀ r', c :: (cs ++ r) ≠ '0' :: r' := by
      rintro r' ⟨⟩
      exact hc rfl
    rw [List.cons_append, integerPart, someDigits, ← List.cons_append,
      takeWhile_append_of_ends hdigits hend, dropWhile_append_of_ends hdigits hend]
    · simp [hdigits c List.mem_cons_self]
    · exact fun r' h => hcs r' h

/-- A numeral is read as the spelling of a number, with neither a fraction nor an exponent. -/
theorem numberSpelling_append {ds : List Char} (hds : isNumeral ds = true) :
    numberSpelling (ds ++ r) = some (ds, r) := by
  have hmagnitude : magnitude (ds ++ r) = some (ds, r) := by
    simp [magnitude, integerPart_append hr hds, fractionPart_of_endsNumber hr,
      exponentPart_of_endsNumber hr]
  unfold numberSpelling
  split
  · next r' h =>
    -- A numeral does not start with a sign.
    obtain ⟨c, cs, rfl⟩ : ∃ c cs, ds = c :: cs :=
      List.exists_cons_of_ne_nil (by rintro rfl; cases hds)
    obtain ⟨rfl, -⟩ := List.cons.inj h
    simp [isNumeral, Char.isDigit] at hds
  · exact hmagnitude

end

/-! ## Blanks -/

/-- Nothing is skipped in front of a character that is no blank. -/
theorem skipBlanks_cons {c : Char} (hc : isBlank c = false) (s : List Char) :
    skipBlanks (c :: s) = c :: s := by
  simp [skipBlanks, hc]

/-- The line breaks and indents of a layout are skipped. -/
theorem skipBlanks_newline_append (l : Layout) (s : List Char) :
    skipBlanks (l.newline ++ s) = skipBlanks s := by
  have hblank : ∀ c ∈ l.newline, isBlank c = true := by
    cases l with
    | compact => simp [Layout.newline]
    | lines n =>
      intro c hc
      rcases List.mem_cons.1 hc with rfl | hc
      · rfl
      · rw [List.eq_of_mem_replicate hc]
        rfl
  exact List.dropWhile_append_of_pos hblank

/-- Colons are written alike at every depth. -/
theorem colon_inner (l : Layout) : l.inner.colon = l.colon := by
  cases l <;> rfl

/-- The blank after a colon is skipped. -/
theorem skipBlanks_colon_tail_append (l : Layout) (s : List Char) :
    skipBlanks (l.colon.tail ++ s) = skipBlanks s := by
  cases l <;> rfl

section

variable {n : Nat} {s t : List Char} (h : skipBlanks s = skipBlanks t)

include h

attribute [local simp] value items members

/-- Blanks ahead do not matter. -/
theorem value_congr : value n s = value n t := by
  cases n with
  | zero => simp
  | succ n => simp [h]

/-- Blanks in front do not change what items are read. -/
theorem items_congr : items n s = items n t := by
  cases n with
  | zero => simp
  | succ n => simp [value_congr h]

/-- Blanks in front do not change what members are read. -/
theorem members_congr : members n s = members n t := by
  cases n with
  | zero => simp
  | succ n => simp [h]

end

/-! ## Lists and tables -/

section

variable {n : Nat} {s cs : List Char} {c : Char} (hblank : isBlank c = false)
  (hs : skipBlanks s = c :: cs)

include hblank hs

/-- A list that is not empty is read item by item. -/
theorem value_list (hc : c ≠ ']') :
    value (n + 1) ('[' :: s) = (items n s).map fun p => (.list p.1, p.2) := by
  have hitems : items n s = items n (c :: cs) := items_congr (by rw [hs, skipBlanks_cons hblank])
  rw [value, skipBlanks_cons rfl]
  simp only [hs]
  split
  · next h => exact absurd (List.cons.inj h).1 hc
  · rw [hitems]

/-- A table that is not empty is read member by member. -/
theorem value_table (hc : c ≠ '\x7d') :
    value (n + 1) ('\x7b' :: s) = (members n s).map fun p => (.table p.1, p.2) := by
  have hmembers : members n s = members n (c :: cs) :=
    members_congr (by rw [hs, skipBlanks_cons hblank])
  rw [value, skipBlanks_cons rfl]
  simp only [hs]
  split
  · next h => exact absurd (List.cons.inj h).1 hc
  · rw [hmembers]

end

section

variable {n : Nat} {s t r k : List Char} {d : Document}

/-- A value before a closing bracket is the last item. -/
theorem items_end (hd : value n s = some (d, t)) (ht : skipBlanks t = ']' :: r) :
    items (n + 1) s = some ([d], r) := by
  rw [items, hd, Option.bind_some, ht]
  rfl

/-- A value before a comma is followed by other items. -/
theorem items_next (hd : value n s = some (d, t)) (ht : skipBlanks t = ',' :: r)
    {ds : List Document} {rest : List Char} (hr : items n r = some (ds, rest)) :
    items (n + 1) s = some (d :: ds, rest) := by
  rw [items, hd, Option.bind_some, ht]
  simp only [hr, Option.map_some]

/-- A key and a value before a closing brace are the last member. -/
theorem members_end (hk : key (skipBlanks s) = some (k, r)) (hd : value n r = some (d, t))
    {rest : List Char} (ht : skipBlanks t = '\x7d' :: rest) :
    members (n + 1) s = some ([(k, d)], rest) := by
  rw [members, hk, Option.bind_some, hd, Option.bind_some, ht]
  rfl

/-- A key and a value before a comma are followed by other members. -/
theorem members_next (hk : key (skipBlanks s) = some (k, r)) (hd : value n r = some (d, t))
    {rest : List Char} (ht : skipBlanks t = ',' :: rest)
    {ms : List (List Char × Document)} {rest' : List Char}
    (hr : members n rest = some (ms, rest')) : members (n + 1) s = some ((k, d) :: ms, rest') := by
  rw [members, hk, Option.bind_some, hd, Option.bind_some, ht]
  simp only [hr, Option.map_some]

end

/-! ## Items and members -/

attribute [local simp] write writeItems writeMembers

/-- A character that belongs to no number ends one. -/
theorem endsNumber_cons {c : Char} (hc : c.isDigit = false ∧ c ≠ '.' ∧ c ≠ 'e' ∧ c ≠ 'E')
    (r : List Char) : EndsNumber (c :: r) := by
  rintro _ ⟨⟩
  exact hc

/-- A line break ends a number, and so does what follows where there is none. -/
theorem endsNumber_newline_append (l : Layout) {r : List Char} (hr : EndsNumber r) :
    EndsNumber (l.newline ++ r) := by
  cases l with
  | compact => exact hr
  | lines n => exact endsNumber_cons (by decide) _

/-- Whether a document is read back from how it is written in a layout. -/
def IsReadBack (l : Layout) (d : Document) : Prop :=
  ∀ n rest, (write l d).length < n → EndsNumber rest → value n (write l d ++ rest) = some (d, rest)

/-- The items of a list are read back, up to its end. -/
theorem items_write {l l' : Layout} {d : Document} {ds : List Document}
    (hds : ∀ x ∈ d :: ds, IsReadBack l x) {n : Nat} {rest : List Char}
    (hn : (write l d).length + (writeItems l ds).length + 1 < n) :
    items n (write l d ++ (writeItems l ds ++ (l'.newline ++ ']' :: rest))) =
      some (d :: ds, rest) := by
  -- The first item is kept apart: each of the others has a comma ahead.
  induction ds generalizing d n with
  | nil =>
    obtain ⟨n, rfl⟩ : ∃ k, n = k + 1 := ⟨n - 1, by omega⟩
    have hend : EndsNumber (l'.newline ++ ']' :: rest) :=
      endsNumber_newline_append l' (endsNumber_cons (by decide) rest)
    rw [writeItems, List.nil_append]
    refine items_end (hds d List.mem_cons_self n _ (by omega) hend) ?_
    rw [skipBlanks_newline_append, skipBlanks_cons rfl]
  | cons d' ds ih =>
    obtain ⟨n, rfl⟩ : ∃ k, n = k + 1 := ⟨n - 1, by omega⟩
    simp only [writeItems, List.length_cons, List.length_append] at hn
    have hrest := ih (fun x hx => hds x (List.mem_cons_of_mem d hx)) (n := n) (by omega)
    rw [← items_congr (skipBlanks_newline_append l _)] at hrest
    have hend (s : List Char) : EndsNumber (',' :: s) := endsNumber_cons (by decide) s
    have hnext :=
      items_next (hds d List.mem_cons_self n _ (by omega) (hend _)) (skipBlanks_cons rfl _) hrest
    simpa using hnext

/-- The members of a table are read back, up to its end. -/
theorem members_write {l l' : Layout} {k : List Char} {d : Document}
    {ms : List (List Char × Document)} (hms : ∀ x ∈ (k, d) :: ms, IsReadBack l x.2)
    {n : Nat} {rest : List Char}
    (hn : (quote k).length + (write l d).length + (writeMembers l ms).length < n) :
    members n
      (quote k ++
        (l.colon ++ (write l d ++ (writeMembers l ms ++ (l'.newline ++ '\x7d' :: rest))))) =
      some ((k, d) :: ms, rest) := by
  have hkey (k s : List Char) : key (skipBlanks (quote k ++ (l.colon ++ s))) =
      some (k, l.colon.tail ++ s) := by
    rw [quote_append, skipBlanks_cons rfl, ← quote_append, key_quote_append]
  have hquote (k : List Char) : 0 < (quote k).length := by simp [quote]
  -- By induction on the members after the first. The bound counts the characters to be read.
  induction ms generalizing k d n with
  | nil =>
    obtain ⟨n, rfl⟩ : ∃ k, n = k + 1 := ⟨n - 1, by omega⟩
    have hend : EndsNumber (l'.newline ++ '\x7d' :: rest) :=
      endsNumber_newline_append l' (endsNumber_cons (by decide) rest)
    have hread : IsReadBack l d := hms _ List.mem_cons_self
    have hk := hquote k
    have hvalue := hread n _ (by omega) hend
    rw [← value_congr (skipBlanks_colon_tail_append l _)] at hvalue
    rw [writeMembers, List.nil_append]
    refine members_end (hkey k _) hvalue ?_
    rw [skipBlanks_newline_append, skipBlanks_cons rfl]
  | cons m ms ih =>
    obtain ⟨k', d'⟩ := m
    obtain ⟨n, rfl⟩ : ∃ k, n = k + 1 := ⟨n - 1, by omega⟩
    simp only [writeMembers, List.length_cons, List.length_append] at hn
    have hrest := ih (fun x hx => hms x (List.mem_cons_of_mem _ hx)) (n := n) (by omega)
    rw [← members_congr (skipBlanks_newline_append l _)] at hrest
    have hend (s : List Char) : EndsNumber (',' :: s) := endsNumber_cons (by decide) s
    have hread : IsReadBack l d := hms _ List.mem_cons_self
    have hk := hquote k
    have hvalue (s : List Char) : value n (l.colon.tail ++ (write l d ++ ',' :: s)) =
        some (d, ',' :: s) := by
      rw [value_congr (skipBlanks_colon_tail_append l _)]
      exact hread n _ (by omega) (hend s)
    have hnext := members_next (hkey k _) (hvalue _) (skipBlanks_cons rfl _) hrest
    simpa using hnext

/-! ## Documents -/

/-- Whether a plain value has a form in JSON that is read back. -/
def isWritten : Document → Bool
  | .number spelling => isNumeral spelling
  | .halfString _ | .moment => false
  | _ => true

/-- A numeral starts with a digit. -/
theorem exists_eq_cons_of_isNumeral {ds : List Char} (h : isNumeral ds = true) :
    ∃ c cs, ds = c :: cs ∧ c.isDigit = true := by
  obtain ⟨c, cs, rfl⟩ : ∃ c cs, ds = c :: cs := List.exists_cons_of_ne_nil (by rintro rfl; cases h)
  simp only [isNumeral, Bool.and_eq_true, List.all_cons] at h
  exact ⟨c, cs, rfl, h.1.2.1⟩

/-- Digits are no blanks. -/
theorem not_isBlank_of_isDigit {c : Char} (h : c.isDigit = true) : isBlank c = false := by
  rw [← Bool.not_eq_true]
  intro hblank
  simp only [isBlank, Bool.or_eq_true, beq_iff_eq] at hblank
  rcases hblank with ((rfl | rfl) | rfl) | rfl <;> cases h

/-- What is written starts with a character that is no blank and ends nothing. -/
theorem exists_write_eq_cons {d : Document} (hd : d.holdsThroughout isWritten = true) (l : Layout) :
    ∃ c cs, write l d = c :: cs ∧ isBlank c = false ∧ c ≠ ']' ∧ c ≠ '\x7d' := by
  cases d with
  | null => exact ⟨_, _, rfl, by decide⟩
  | bool b => cases b <;> exact ⟨_, _, rfl, by decide⟩
  | number spelling =>
    obtain ⟨c, cs, rfl, hc⟩ := exists_eq_cons_of_isNumeral hd
    refine ⟨c, cs, rfl, not_isBlank_of_isDigit hc, ?_, ?_⟩ <;> (rintro rfl; cases hc)
  | string s => exact ⟨_, _, rfl, by decide⟩
  | halfString spelling => cases hd
  | moment => cases hd
  | list ds => cases ds <;> exact ⟨_, _, rfl, by decide⟩
  | table ms => cases ms <;> exact ⟨_, _, rfl, by decide⟩

/-- A numeral is read back. -/
theorem isReadBack_number {spelling : List Char} (h : isNumeral spelling = true) (l : Layout) :
    IsReadBack l (.number spelling) := by
  intro n rest hn hrest
  obtain ⟨n, rfl⟩ : ∃ k, n = k + 1 := ⟨n - 1, by omega⟩
  obtain ⟨c, cs, rfl, hc⟩ := exists_eq_cons_of_isNumeral h
  rw [write, value, List.cons_append, skipBlanks_cons (not_isBlank_of_isDigit hc)]
  -- No other form starts with a digit.
  have hne {b : Char} (hb : b.isDigit = false) : c ≠ b := by
    rintro rfl
    rw [hb] at hc
    cases hc
  split
  · next h => exact absurd (List.cons.inj h).1 (hne (by decide))
  · next h => exact absurd (List.cons.inj h).1 (hne (by decide))
  · next h => exact absurd (List.cons.inj h).1 (hne (by decide))
  · next h => exact absurd (List.cons.inj h).1 (hne (by decide))
  · next h => exact absurd (List.cons.inj h).1 (hne (by decide))
  · next h => exact absurd (List.cons.inj h).1 (hne (by decide))
  · rw [← List.cons_append, numberSpelling_append hrest h, Option.map_some]

/-- A string is read back, whatever its characters. -/
theorem isReadBack_string (s : List Char) (l : Layout) : IsReadBack l (.string s) := by
  intro n rest hn hrest
  obtain ⟨n, rfl⟩ : ∃ k, n = k + 1 := ⟨n - 1, by omega⟩
  rw [write, quote_append, value, skipBlanks_cons rfl]
  simp only [stringDocument, stringUnits_flatMap_escape, Option.map_some, textOfUnits?_map_inl]

/-- A list is read back if its items are. -/
theorem isReadBack_list {ds : List Document} (l : Layout)
    (hwritten : ∀ d ∈ ds, d.holdsThroughout isWritten = true)
    (hds : ∀ d ∈ ds, IsReadBack l.inner d) : IsReadBack l (.list ds) := by
  intro n rest hn hrest
  obtain ⟨n, rfl⟩ : ∃ k, n = k + 1 := ⟨n - 1, by omega⟩
  cases ds with
  | nil =>
    rw [write, value]
    rfl
  | cons d ds =>
    -- The first item starts with neither a blank nor a closing bracket, so the list is not taken
    -- for an empty one.
    obtain ⟨c, cs, hc, hblank, hlist, -⟩ :=
      exists_write_eq_cons (hwritten d List.mem_cons_self) l.inner
    simp only [write, List.length_cons, List.length_append] at hn
    have hitems :
        items n (write l.inner d ++ (writeItems l.inner ds ++ (l.newline ++ ']' :: rest))) =
        some (d :: ds, rest) := items_write hds (by omega)
    rw [← items_congr (skipBlanks_newline_append l.inner _)] at hitems
    have hfirst (s : List Char) : skipBlanks (l.inner.newline ++ (write l.inner d ++ s)) =
        c :: (cs ++ s) := by
      rw [skipBlanks_newline_append, hc, List.cons_append, skipBlanks_cons hblank]
    have hlist :=
      value_list (n := n) hblank
        (hfirst (writeItems l.inner ds ++ (l.newline ++ ']' :: rest))) hlist
    rw [hitems] at hlist
    simpa using hlist

/-- A table is read back if the values of its members are. -/
theorem isReadBack_table {ms : List (List Char × Document)} (l : Layout)
    (hms : ∀ m ∈ ms, IsReadBack l.inner m.2) : IsReadBack l (.table ms) := by
  intro n rest hn hrest
  obtain ⟨n, rfl⟩ : ∃ k, n = k + 1 := ⟨n - 1, by omega⟩
  cases ms with
  | nil =>
    rw [write, value]
    rfl
  | cons m ms =>
    obtain ⟨k, d⟩ := m
    simp only [write, List.length_cons, List.length_append] at hn
    have hmembers :
        members n (quote k ++ (l.inner.colon ++ (write l.inner d ++ (writeMembers l.inner ms ++
          (l.newline ++ '\x7d' :: rest))))) = some ((k, d) :: ms, rest) :=
      members_write hms (by omega)
    rw [← members_congr (skipBlanks_newline_append l.inner _)] at hmembers
    have hfirst (s : List Char) : skipBlanks (l.inner.newline ++ (quote k ++ s)) =
        '"' :: (k.flatMap escape ++ '"' :: s) := by
      rw [skipBlanks_newline_append, quote_append, skipBlanks_cons rfl]
    have htable := value_table (n := n) rfl (hfirst (l.inner.colon ++ (write l.inner d ++
      (writeMembers l.inner ms ++ (l.newline ++ '\x7d' :: rest))))) (by decide)
    rw [hmembers] at htable
    simpa [colon_inner] using htable

/-- A document that can be written is read back from every layout, by induction on the document. -/
theorem isReadBack {d : Document} (hd : d.holdsThroughout isWritten = true) (l : Layout) :
    IsReadBack l d := by
  -- What a document holds is laid out further in, so the layout varies.
  induction d using Document.rec_inner generalizing l with
  | plain d hplain =>
    cases d with
    | number spelling => exact isReadBack_number hd l
    | string s => exact isReadBack_string s l
    | null =>
      intro n rest hn hrest
      obtain ⟨n, rfl⟩ : ∃ k, n = k + 1 := ⟨n - 1, by omega⟩
      rw [write, value]
      rfl
    | bool b =>
      intro n rest hn hrest
      obtain ⟨n, rfl⟩ : ∃ k, n = k + 1 := ⟨n - 1, by omega⟩
      cases b <;> rw [write, value] <;> rfl
    | halfString spelling => cases hd
    | moment => cases hd
    | list ds => cases hplain
    | table ms => cases hplain
  | list ds ih =>
    rw [Document.holdsThroughout_list] at hd
    exact isReadBack_list l hd fun d hmem => ih d hmem (hd d hmem) l.inner
  | table ms ih =>
    rw [Document.holdsThroughout_table] at hd
    exact isReadBack_table l fun m hmem => ih m hmem (hd m hmem) l.inner

/-- Blanks end a number, and so does the end of the text. -/
theorem endsNumber_of_isBlank {r : List Char} (hr : ∀ c ∈ r, isBlank c = true) : EndsNumber r := by
  intro c hc
  have hblank := hr c (List.mem_of_mem_head? hc)
  simp only [isBlank, Bool.or_eq_true, beq_iff_eq] at hblank
  rcases hblank with ((rfl | rfl) | rfl) | rfl <;> decide

/-- Blanks may follow what was written. -/
theorem read_write_append {d : Document} (hd : d.holdsThroughout isWritten = true)
    (l : Layout) {r : List Char} (hr : ∀ c ∈ r, isBlank c = true) :
    read (write l d ++ r) = some d := by
  have hvalue := isReadBack hd l ((write l d ++ r).length + 1) r
    (by rw [List.length_append]; omega) (endsNumber_of_isBlank hr)
  have hblank : skipBlanks r = [] := List.dropWhile_eq_nil_iff.2 hr
  rw [read, readFront, hvalue, Option.bind_some, hblank]
  rfl

/-- **What was written is read back**, in any layout. -/
theorem read_write {d : Document} (hd : d.holdsThroughout isWritten = true) (l : Layout) :
    read (write l d) = some d := by
  rw [← List.append_nil (write l d)]
  exact read_write_append hd l (by simp)

end ImportLint.Json

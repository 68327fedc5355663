import ImportLint.Proofs.Json.RoundTrip
import ImportLint.Toml.Quoted

/-!
# Quoted texts of TOML as they are written

A text in double quotes is written as in JSON; the one control character that JSON leaves as it is
gets an escape too. Written that way, every text is read back.
-/

namespace ImportLint.Toml

/-- A character in double quotes. -/
def escaped (c : Char) : List Char :=
  if c = '\x7f' then ['\\', 'u', '0', '0', '7', 'f'] else Json.escape c

/-- A text in double quotes. -/
def quote (s : List Char) : List Char := '"' :: s.flatMap escaped ++ ['"']

/-- A quoted text starts with its opening quote. -/
theorem quote_append (s r : List Char) : quote s ++ r = '"' :: (s.flatMap escaped ++ '"' :: r) := by
  simp [quote]

/-! ## Characters -/

/-- An escape is read as the character it stands for. -/
theorem basic_of_escape {s r : List Char} {c : Char} (h : escape s = some (c, r)) :
    basic ('\\' :: s) = (basic r).map fun p => (c :: p.1, p.2) := by
  rw [basic]
  split
  · next c' r' h' =>
    obtain ⟨rfl, rfl⟩ : c = c' ∧ r = r' := by simpa [h] using h'
    rfl
  · next h' =>
    rw [h] at h'
    cases h'

/-- A character that needs no escape is read as it is. -/
theorem basic_cons {c : Char} (hquote : c ≠ '"') (hbackslash : c ≠ '\\')
    (hline : isLineChar c = true) (r : List Char) : basic (c :: r) = (basic r).map fun p =>
      (c :: p.1, p.2) := by
  rw [basic, if_pos hline]
  · exact hquote
  · exact hbackslash

/-- A character is read back from its number. -/
theorem charOfNumber?_toNat (c : Char) : charOfNumber? c.toNat = some c := by
  rw [charOfNumber?, dif_pos (show c.toNat.isValidChar from c.valid)]
  rfl

/-- The letters of escapes are those of JSON, but for a slash. -/
theorem escape_short {letter c : Char} (hslash : letter ≠ '/')
    (h : Json.shortEscape? letter = some c) (r : List Char) :
    escape (letter :: r) = some (c, r) := by
  unfold Json.shortEscape? at h
  split at h <;> cases h
  case h_3 => exact absurd rfl hslash
  all_goals rfl

/-- A numbered escape is read as the control character of that number. -/
theorem escape_control {c : Char} (hcontrol : c.toNat < 0x20) (r : List Char) :
    escape ('u' :: '0' :: '0' :: Json.hexDigit (c.toNat / 16) ::
      Json.hexDigit (c.toNat % 16) :: r) = some (c, r) := by
  rw [escape, Json.hexNumber?_control hcontrol, Option.bind_some,
    charOfNumber?_toNat, Option.map_some]

/-- A character is read back from how it is written. -/
theorem basic_escaped (c : Char) (r : List Char) :
    basic (escaped c ++ r) = (basic r).map fun p => (c :: p.1, p.2) := by
  unfold escaped
  split
  · next hdelete =>
    subst hdelete
    exact basic_of_escape rfl
  · next hdelete =>
    rcases Json.escape_cases c with
      ⟨letter, hslash, hletter, h⟩ | ⟨hcontrol, h⟩ | ⟨hquote, hbackslash, hcontrol, h⟩
    all_goals rw [h]
    · exact basic_of_escape (escape_short hslash hletter r)
    · exact basic_of_escape (escape_control hcontrol r)
    · refine basic_cons hquote hbackslash ?_ r
      have hne : c.toNat ≠ 0x7F := fun h => hdelete (Char.ext (UInt32.toNat.inj h))
      simp [isLineChar, hne, hcontrol]

/-- The characters of a text are read back from their escapes, up to the closing quote. -/
theorem basic_flatMap_escaped (s r : List Char) :
    basic (s.flatMap escaped ++ '"' :: r) = some (s, r) := by
  induction s with
  | nil => rw [List.flatMap_nil, List.nil_append, basic]
  | cons c s ih =>
    rw [List.flatMap_cons, List.append_assoc, basic_escaped, ih]
    rfl

/-! ## Texts -/

/-- No character is escaped as something that starts with a quote. -/
theorem exists_escaped_eq_cons (c : Char) : ∃ b bs, escaped c = b :: bs ∧ b ≠ '"' := by
  unfold escaped
  split
  · exact ⟨_, _, rfl, by decide⟩
  · rcases Json.escape_cases c with ⟨_, -, -, h⟩ | ⟨-, h⟩ | ⟨hquote, -, -, h⟩
    · exact ⟨_, _, h, by decide⟩
    · exact ⟨_, _, h, by decide⟩
    · exact ⟨_, _, h, hquote⟩

/-- **A quoted text is read back** where no further quote follows it. -/
theorem quoted_quote_append (s : List Char) {r : List Char} (hr : r.head? ≠ some '"') :
    quoted (quote s ++ r) = some (s, r) := by
  rw [quote_append, quoted]
  · exact basic_flatMap_escaped s r
  · -- The text does not open with three quotes.
    intro r' h
    cases s with
    | nil =>
      obtain ⟨-, h⟩ := List.cons.inj h
      exact hr (by rw [h]; rfl)
    | cons c s =>
      obtain ⟨b, bs, hc, hb⟩ := exists_escaped_eq_cons c
      rw [List.flatMap_cons, hc] at h
      exact hb (List.cons.inj h).1

end ImportLint.Toml

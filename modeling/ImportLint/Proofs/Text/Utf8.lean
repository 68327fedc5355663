import ImportLint.Proofs.Traverse
import ImportLint.Text.Utf8

/-!
# Decoding what was encoded

Bytes decode to a text exactly if they are the encoding of the text. A first byte says how many
bytes follow and in which ranges they are. The ranges leave out the longer ways to write a
character, the halves of surrogate pairs and what is no character, so the bytes of a character are
the ones that it is encoded in.
-/

namespace ImportLint.Utf8

/-! ## First bytes -/

section

variable {b : UInt8}

/-- A byte below 128 is a character of its own. -/
theorem lead?_one (h : b.toNat < 0x80) : lead? b = some (b.toNat, []) := by
  have hb : b < 0x80 := UInt8.lt_iff_toNat_lt.2 h
  rw [lead?, if_pos hb]

/-- A byte between the single ones and the leading ones leads nothing, and neither does one above
them. -/
theorem lead?_none (hlow : 0x80 ≤ b.toNat) (h : b.toNat < 0xC2 ∨ 0xF5 ≤ b.toNat) :
    lead? b = none := by
  simp only [lead?, UInt8.lt_iff_toNat_lt, UInt8.toNat_ofNat, Nat.reducePow, Nat.reduceMod]
  rw [if_neg (by omega)]
  split
  · rfl
  · rw [if_neg (by omega), if_neg (by omega), if_neg (by omega)]

/-- A leading byte of two is followed by one continuation. -/
theorem lead?_two (hlow : 0xC2 ≤ b.toNat) (hhigh : b.toNat < 0xE0) :
    lead? b = some (b.toNat % 32, [continuation]) := by
  simp only [lead?, UInt8.lt_iff_toNat_lt, UInt8.toNat_ofNat, Nat.reducePow, Nat.reduceMod]
  rw [if_neg (by omega), if_neg (by omega), if_pos hhigh]

/-- Of the characters of three bytes, some could be written in two and some are halves of a pair. -/
theorem lead?_three (hlow : 0xE0 ≤ b.toNat) (hhigh : b.toNat < 0xF0) :
    ∃ second, lead? b = some (b.toNat % 16, [second, continuation]) ∧
      second.1.toNat = (if b.toNat = 0xE0 then 0xA0 else 0x80) ∧
      second.2.toNat = if b.toNat = 0xED then 0x9F else 0xBF := by
  simp only [lead?, UInt8.lt_iff_toNat_lt, UInt8.toNat_ofNat, Nat.reducePow,
    Nat.reduceMod, beq_iff_eq, ← UInt8.toNat_inj]
  rw [if_neg (by omega), if_neg (by omega), if_neg (by omega), if_pos hhigh]
  refine ⟨_, rfl, ?_, ?_⟩
  · split
    · rfl
    · split <;> rfl
  · split
    · next h => rw [h]; rfl
    · split <;> rfl

/-- Of the characters of four bytes, some could be written in three and some are none. -/
theorem lead?_four (hlow : 0xF0 ≤ b.toNat) (hhigh : b.toNat < 0xF5) :
    ∃ second, lead? b = some (b.toNat % 8, [second, continuation, continuation]) ∧
      second.1.toNat = (if b.toNat = 0xF0 then 0x90 else 0x80) ∧
      second.2.toNat = if b.toNat = 0xF4 then 0x8F else 0xBF := by
  simp only [lead?, UInt8.lt_iff_toNat_lt, UInt8.toNat_ofNat, Nat.reducePow,
    Nat.reduceMod, beq_iff_eq, ← UInt8.toNat_inj]
  rw [if_neg (by omega), if_neg (by omega), if_neg (by omega), if_neg (by omega), if_pos hhigh]
  refine ⟨_, rfl, ?_, ?_⟩
  · split
    · rfl
    · split <;> rfl
  · split
    · next h => rw [h]; rfl
    · split <;> rfl

end

/-! ## Bytes that follow -/

section

variable {value : Nat} {range : UInt8 × UInt8} {ranges : List (UInt8 × UInt8)}
  {r rest : List UInt8} {c : Char}

/-- A byte in its range adds six bits to the value. -/
theorem follow_cons {b : UInt8} (hlow : range.1.toNat ≤ b.toNat) (hhigh : b.toNat ≤ range.2.toNat) :
    follow value (range :: ranges) (b :: r) = follow (value * 64 + b.toNat % 64) ranges r := by
  have h : (decide (range.1 ≤ b) && decide (b ≤ range.2)) = true := by
    simp [UInt8.le_iff_toNat_le, hlow, hhigh]
  rw [follow, if_pos h]

/-- A character with more bytes has the next one in the range that it has to be in. -/
theorem exists_of_follow_cons (h : follow value (range :: ranges) r = (some c, rest)) :
    ∃ b r', r = b :: r' ∧ range.1.toNat ≤ b.toNat ∧ b.toNat ≤ range.2.toNat ∧
      follow (value * 64 + b.toNat % 64) ranges r' = (some c, rest) := by
  cases r with
  | nil => cases h
  | cons b r' =>
    rw [follow] at h
    split at h
    · next hrange =>
      rw [Bool.and_eq_true, decide_eq_true_eq, decide_eq_true_eq, UInt8.le_iff_toNat_le,
        UInt8.le_iff_toNat_le] at hrange
      exact ⟨b, r', rfl, hrange.1, hrange.2, h⟩
    · cases h

end

/-- The continuations are the bytes from 128 to 191. -/
theorem continuation_bounds : continuation.1.toNat = 0x80 ∧ continuation.2.toNat = 0xBF :=
  ⟨rfl, rfl⟩

/-! ## Characters -/

/-- The encoding of a character by its number. -/
theorem encodeChar_eq (c : Char) : String.utf8EncodeChar c =
    if c.toNat ≤ 127 then [UInt8.ofNat c.toNat]
    else if c.toNat ≤ 2047 then
      [UInt8.ofNat (c.toNat / 64 % 32 + 192), UInt8.ofNat (c.toNat % 64 + 128)]
    else if c.toNat ≤ 65535 then
      [UInt8.ofNat (c.toNat / 4096 % 16 + 224), UInt8.ofNat (c.toNat / 64 % 64 + 128),
        UInt8.ofNat (c.toNat % 64 + 128)]
    else
      [UInt8.ofNat (c.toNat / 262144 % 8 + 240), UInt8.ofNat (c.toNat / 4096 % 64 + 128),
        UInt8.ofNat (c.toNat / 64 % 64 + 128), UInt8.ofNat (c.toNat % 64 + 128)] := rfl

/-- A number below 256 is kept as a byte. -/
theorem toNat_ofNat_of_lt {n : Nat} (h : n < 256) : (UInt8.ofNat n).toNat = n := by
  rw [UInt8.toNat_ofNat', Nat.mod_eq_of_lt h]

/-- A character that was encoded is read again, and nothing of what follows it. -/
theorem exists_next_encodeChar (c : Char) (r : List UInt8) :
    ∃ b bs, String.utf8EncodeChar c = b :: bs ∧ next b (bs ++ r) = (some c, r) := by
  have hvalid : c.toNat < 0xD800 ∨ 0xDFFF < c.toNat ∧ c.toNat < 0x110000 := c.valid
  have hc {n : Nat} (hn : n = c.toNat) : follow n [] r = (some c, r) := by
    rw [follow, hn, Char.ofNat_toNat]
  have hlast : (UInt8.ofNat (c.toNat % 64 + 128)).toNat = c.toNat % 64 + 128 :=
    toNat_ofNat_of_lt (by omega)
  have hthird : (UInt8.ofNat (c.toNat / 64 % 64 + 128)).toNat = c.toNat / 64 % 64 + 128 :=
    toNat_ofNat_of_lt (by omega)
  obtain ⟨hcont, hcont'⟩ := continuation_bounds
  rw [encodeChar_eq]
  -- One case for each number of bytes.
  split
  · have hb : (UInt8.ofNat c.toNat).toNat = c.toNat := toNat_ofNat_of_lt (by omega)
    refine ⟨_, _, rfl, ?_⟩
    rw [next, lead?_one (by omega)]
    exact hc hb
  · split
    · have hb : (UInt8.ofNat (c.toNat / 64 % 32 + 192)).toNat = c.toNat / 64 % 32 + 192 :=
        toNat_ofNat_of_lt (by omega)
      refine ⟨_, _, rfl, ?_⟩
      rw [next, lead?_two (by omega) (by omega)]
      show follow _ _ (_ :: r) = _
      rw [follow_cons (by omega) (by omega)]
      exact hc (by omega)
    · split
      · have hb : (UInt8.ofNat (c.toNat / 4096 % 16 + 224)).toNat = c.toNat / 4096 % 16 + 224 :=
          toNat_ofNat_of_lt (by omega)
        obtain ⟨second, hlead, hlow, hhigh⟩ :=
          lead?_three (b := UInt8.ofNat (c.toNat / 4096 % 16 + 224)) (by omega) (by omega)
        refine ⟨_, _, rfl, ?_⟩
        rw [next, hlead]
        show follow _ _ (_ :: _ :: r) = _
        rw [follow_cons (by split at hlow <;> omega) (by split at hhigh <;> omega),
          follow_cons (by omega) (by omega)]
        exact hc (by omega)
      · have hb : (UInt8.ofNat (c.toNat / 262144 % 8 + 240)).toNat = c.toNat / 262144 % 8 + 240 :=
          toNat_ofNat_of_lt (by omega)
        have hsecond : (UInt8.ofNat (c.toNat / 4096 % 64 + 128)).toNat =
            c.toNat / 4096 % 64 + 128 :=
          toNat_ofNat_of_lt (by omega)
        obtain ⟨second, hlead, hlow, hhigh⟩ :=
          lead?_four (b := UInt8.ofNat (c.toNat / 262144 % 8 + 240)) (by omega) (by omega)
        refine ⟨_, _, rfl, ?_⟩
        rw [next, hlead]
        show follow _ _ (_ :: _ :: _ :: r) = _
        rw [follow_cons (by split at hlow <;> omega) (by split at hhigh <;> omega),
          follow_cons (by omega) (by omega), follow_cons (by omega) (by omega)]
        exact hc (by omega)

/-- A number that is that of a character is its number. -/
theorem toNat_of_ofNat {n : Nat} (h : n < 0xD800 ∨ 0xDFFF < n ∧ n < 0x110000) :
    (Char.ofNat n).toNat = n := by
  have hvalid : n.isValidChar := h
  rw [Char.ofNat, dif_pos hvalid]
  rfl

/-- A byte is made of its own number. -/
theorem ofNat_eq_of_toNat {n : Nat} {b : UInt8} (h : n = b.toNat) : UInt8.ofNat n = b := by
  rw [h, UInt8.ofNat_toNat]

section

variable {b : UInt8} {r rest : List UInt8} {c : Char}

/-- The number of a character, once all its bytes are read. -/
theorem toNat_of_follow_nil {n : Nat} (h : follow n [] r = (some c, rest))
    (hvalid : n < 0xD800 ∨ 0xDFFF < n ∧ n < 0x110000) : c.toNat = n ∧ r = rest := by
  obtain ⟨hc, rfl⟩ := Prod.mk.inj h
  obtain rfl := Option.some.inj hc
  exact ⟨toNat_of_ofNat hvalid, rfl⟩

/-- A second byte is one that follows, and no lower than the first byte asks for. -/
theorem low_bounds {first lead least low second : Nat}
    (hlow : low = if first = lead then least else 0x80) (hleast : 0x80 ≤ least)
    (hsecond : low ≤ second) : 0x80 ≤ second ∧ (first = lead → least ≤ second) := by
  constructor
  · split at hlow <;> omega
  · intro hlead
    rw [if_pos hlead] at hlow
    omega

/-- A second byte is one that follows, and no higher than the first byte asks for. -/
theorem high_bounds {first lead most high second : Nat}
    (hhigh : high = if first = lead then most else 0xBF) (hmost : most ≤ 0xBF)
    (hsecond : second ≤ high) : second ≤ 0xBF ∧ (first = lead → second ≤ most) := by
  constructor
  · split at hhigh <;> omega
  · intro hlead
    rw [if_pos hlead] at hhigh
    omega

/-- A character read from a single byte is written as that byte. -/
theorem eq_encodeChar_of_one (hb : b.toNat < 0x80) (h : next b r = (some c, rest)) :
    b :: r = String.utf8EncodeChar c ++ rest := by
  rw [next, lead?_one hb] at h
  obtain ⟨hc, rfl⟩ := toNat_of_follow_nil h (by omega)
  rw [encodeChar_eq, if_pos (by omega), ofNat_eq_of_toNat hc]
  rfl

/-- A character read from two bytes is written as these bytes. -/
theorem eq_encodeChar_of_two (hb : 0xC2 ≤ b.toNat) (hb' : b.toNat < 0xE0)
    (h : next b r = (some c, rest)) : b :: r = String.utf8EncodeChar c ++ rest := by
  obtain ⟨hcont, hcont'⟩ := continuation_bounds
  rw [next, lead?_two hb hb'] at h
  obtain ⟨b₂, r, rfl, hlow₂, hhigh₂, h⟩ := exists_of_follow_cons h
  obtain ⟨hc, rfl⟩ := toNat_of_follow_nil h (by omega)
  rw [encodeChar_eq, if_neg (by omega), if_pos (by omega), ofNat_eq_of_toNat (b := b) (by omega),
    ofNat_eq_of_toNat (b := b₂) (by omega)]
  rfl

/-- A character read from three bytes is written as these bytes. -/
theorem eq_encodeChar_of_three (hb : 0xE0 ≤ b.toNat) (hb' : b.toNat < 0xF0)
    (h : next b r = (some c, rest)) : b :: r = String.utf8EncodeChar c ++ rest := by
  obtain ⟨hcont, hcont'⟩ := continuation_bounds
  obtain ⟨second, hlead, hlow, hhigh⟩ := lead?_three hb hb'
  rw [next, hlead] at h
  obtain ⟨b₂, r, rfl, hlow₂, hhigh₂, h⟩ := exists_of_follow_cons h
  obtain ⟨b₃, r, rfl, hlow₃, hhigh₃, h⟩ := exists_of_follow_cons h
  -- The number is none that two bytes can hold, and no half of a pair.
  obtain ⟨hrange, hlong⟩ := low_bounds hlow (by omega) hlow₂
  obtain ⟨hrange', hhalf⟩ := high_bounds hhigh (by omega) hhigh₂
  obtain ⟨hc, rfl⟩ := toNat_of_follow_nil h (by omega)
  rw [encodeChar_eq, if_neg (by omega), if_neg (by omega), if_pos (by omega),
    ofNat_eq_of_toNat (b := b) (by omega), ofNat_eq_of_toNat (b := b₂) (by omega),
    ofNat_eq_of_toNat (b := b₃) (by omega)]
  rfl

/-- A character read from four bytes is written as these bytes. -/
theorem eq_encodeChar_of_four (hb : 0xF0 ≤ b.toNat) (hb' : b.toNat < 0xF5)
    (h : next b r = (some c, rest)) : b :: r = String.utf8EncodeChar c ++ rest := by
  obtain ⟨hcont, hcont'⟩ := continuation_bounds
  obtain ⟨second, hlead, hlow, hhigh⟩ := lead?_four hb hb'
  rw [next, hlead] at h
  obtain ⟨b₂, r, rfl, hlow₂, hhigh₂, h⟩ := exists_of_follow_cons h
  obtain ⟨b₃, r, rfl, hlow₃, hhigh₃, h⟩ := exists_of_follow_cons h
  obtain ⟨b₄, r, rfl, hlow₄, hhigh₄, h⟩ := exists_of_follow_cons h
  -- The number is none that three bytes can hold, and below the end of all characters.
  obtain ⟨hrange, hlong⟩ := low_bounds hlow (by omega) hlow₂
  obtain ⟨hrange', hmost⟩ := high_bounds hhigh (by omega) hhigh₂
  obtain ⟨hc, rfl⟩ := toNat_of_follow_nil h (by omega)
  rw [encodeChar_eq, if_neg (by omega), if_neg (by omega), if_neg (by omega),
    ofNat_eq_of_toNat (b := b) (by omega), ofNat_eq_of_toNat (b := b₂) (by omega),
    ofNat_eq_of_toNat (b := b₃) (by omega), ofNat_eq_of_toNat (b := b₄) (by omega)]
  rfl

/-- The bytes of a character that is read are the ones that it is encoded in. -/
theorem eq_encodeChar_of_next (h : next b r = (some c, rest)) :
    b :: r = String.utf8EncodeChar c ++ rest := by
  rcases Nat.lt_or_ge b.toNat 0x80 with hone | hone
  · exact eq_encodeChar_of_one hone h
  · by_cases hnone : b.toNat < 0xC2 ∨ 0xF5 ≤ b.toNat
    · rw [next, lead?_none hone hnone] at h
      cases h
    · rcases Nat.lt_or_ge b.toNat 0xE0 with htwo | htwo
      · exact eq_encodeChar_of_two (by omega) htwo h
      · rcases Nat.lt_or_ge b.toNat 0xF0 with hthree | hthree
        · exact eq_encodeChar_of_three htwo hthree h
        · exact eq_encodeChar_of_four hthree (by omega) h

end

/-! ## Texts -/

/-- A text is written character by character. -/
theorem encode_cons (c : Char) (s : List Char) :
    encode (c :: s) = String.utf8EncodeChar c ++ encode s := rfl

/-- Bytes are read unit by unit. -/
theorem units_cons (b : UInt8) (r : List UInt8) :
    units (b :: r) = (next b r).1 :: units (next b r).2 := by
  rw [units]

/-- The units of an encoded text are its characters. -/
theorem units_encode (s : List Char) : units (encode s) = s.map some := by
  induction s with
  | nil => rw [show encode [] = [] from rfl, units]; rfl
  | cons c s ih =>
    obtain ⟨b, bs, hc, hnext⟩ := exists_next_encodeChar c (encode s)
    rw [encode_cons, hc, List.cons_append, units_cons, hnext, ih]
    rfl

/-- Units that are all characters are those of the encoding. -/
theorem eq_encode_of_units {bytes : List UInt8} {s : List Char} (h : units bytes = s.map some) :
    bytes = encode s := by
  induction s generalizing bytes with
  | nil =>
    cases bytes with
    | nil => rfl
    | cons b r =>
      rw [units_cons] at h
      cases h
  | cons c s ih =>
    cases bytes with
    | nil =>
      rw [units] at h
      cases h
    | cons b r =>
      rw [units_cons, List.map_cons] at h
      obtain ⟨hc, hrest⟩ := List.cons.inj h
      have hnext : next b r = (some c, encode s) := Prod.ext hc (ih hrest)
      exact eq_encodeChar_of_next hnext

/-- **Bytes decode** to a text exactly if they are its encoding. -/
theorem decode?_eq_some_iff {bytes : List UInt8} {s : List Char} : decode? bytes = some s ↔
    bytes = encode s := by
  have hunits : decode? bytes = some s ↔ units bytes = s.map some := by
    rw [decode?, mapM_eq_some_iff, ← List.forall₂_eq_eq_eq, List.forall₂_map_right_iff]
    rfl
  rw [hunits]
  constructor
  · exact eq_encode_of_units
  · rintro rfl
    exact units_encode s

end ImportLint.Utf8

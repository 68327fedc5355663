import ImportLint.Proofs.Text.Utf8

/-!
# ASCII characters in bytes

The byte of an ASCII character stands for that character wherever it stands: no byte of another one
is the same. So an ASCII character can be looked for in the bytes of a text as well as in the text.
-/

namespace ImportLint.Utf8

/-- A text is encoded part by part. -/
theorem encode_append (s t : List Char) : encode (s ++ t) = encode s ++ encode t :=
  List.flatMap_append

/-- The byte of an ASCII character. -/
def ascii (c : Char) : UInt8 := UInt8.ofNat c.toNat

section

variable {a c : Char} (ha : a.toNat ≤ 127)

include ha

/-- An ASCII character is encoded as one byte. -/
theorem encodeChar_ascii : String.utf8EncodeChar a = [ascii a] := by
  rw [encodeChar_eq, if_pos ha]
  rfl

/-- An ASCII character in front is encoded as a byte in front. -/
theorem encode_cons_ascii (s : List Char) : encode (a :: s) = ascii a :: encode s := by
  rw [encode_cons, encodeChar_ascii ha]
  rfl

/-- An ASCII character takes one byte. -/
theorem utf8Size_ascii : a.utf8Size = 1 := by
  have hlen := length_encode [a]
  rw [encode_cons_ascii ha, size_cons, size_nil, Nat.add_zero] at hlen
  exact hlen.symm

/-- An ASCII character at the end takes one byte more. -/
theorem size_concat_ascii (u : List Char) : size (u ++ [a]) = size u + 1 := by
  rw [size_append, size_cons, utf8Size_ascii ha, size_nil]

/-- The bytes of another character are not that of an ASCII character. -/
theorem ascii_mem_encodeChar_iff : ascii a ∈ String.utf8EncodeChar c ↔ c = a := by
  have hbyte {n : Nat} (hn : n < 256) (hne : n ≠ a.toNat) : ascii a ≠ UInt8.ofNat n := by
    intro h
    apply hne
    rw [← toNat_ofNat_of_lt hn, ← h, ascii, toNat_ofNat_of_lt (by omega)]
  constructor
  · intro h
    by_contra hne
    have hnumber : c.toNat ≠ a.toNat := fun h => hne (Char.ext (UInt32.toNat_inj.1 h))
    revert h
    rw [encodeChar_eq]
    -- One case for each number of bytes; if there are several, each is above 127.
    split
    · simp only [List.mem_singleton]
      exact hbyte (by omega) hnumber
    · split
      · simp only [List.mem_cons, List.not_mem_nil, or_false, not_or, imp_false]
        exact ⟨hbyte (by omega) (by omega), hbyte (by omega) (by omega)⟩
      · split
        · simp only [List.mem_cons, List.not_mem_nil, or_false, not_or, imp_false]
          exact ⟨hbyte (by omega) (by omega), hbyte (by omega) (by omega),
            hbyte (by omega) (by omega)⟩
        · simp only [List.mem_cons, List.not_mem_nil, or_false, not_or, imp_false]
          exact ⟨hbyte (by omega) (by omega), hbyte (by omega) (by omega),
            hbyte (by omega) (by omega), hbyte (by omega) (by omega)⟩
  · rintro rfl
    rw [encodeChar_ascii ha]
    exact List.mem_singleton_self _

/-- The byte of an ASCII character is in the bytes of a text exactly if the character is in the
text. -/
theorem ascii_mem_encode_iff {s : List Char} : ascii a ∈ encode s ↔ a ∈ s := by
  simp only [encode, List.mem_flatMap, ascii_mem_encodeChar_iff ha]
  simp

/-- Bytes start with that of an ASCII character exactly if the text starts with the character. -/
theorem head?_encode_eq_iff {s : List Char} : (encode s).head? = some (ascii a) ↔
    s.head? = some a := by
  cases s with
  | nil => simp [encode]
  | cons c s =>
    rw [List.head?_cons, Option.some.injEq, ← ascii_mem_encodeChar_iff ha]
    constructor
    · intro h
      obtain ⟨b, bs, hc, -⟩ := exists_next_encodeChar c []
      rw [encode_cons, hc, List.cons_append, List.head?_cons, Option.some.injEq] at h
      rw [hc, h]
      exact List.mem_cons_self
    · intro h
      rw [(ascii_mem_encodeChar_iff ha).1 h, encode_cons_ascii ha, List.head?_cons]

end

/-- The first byte of a character is none that may go on with one. -/
theorem exists_encodeChar_eq_cons (c : Char) :
    ∃ b bs, String.utf8EncodeChar c = b :: bs ∧ (b.toNat < 0x80 ∨ 0xC0 ≤ b.toNat) := by
  have hvalid : c.toNat < 0xD800 ∨ 0xDFFF < c.toNat ∧ c.toNat < 0x110000 := c.valid
  rw [encodeChar_eq]
  -- One case for each number of bytes.
  split
  · exact ⟨_, _, rfl, .inl (by rw [toNat_ofNat_of_lt] <;> omega)⟩
  · split
    · exact ⟨_, _, rfl, .inr (by rw [toNat_ofNat_of_lt] <;> omega)⟩
    · split
      · exact ⟨_, _, rfl, .inr (by rw [toNat_ofNat_of_lt] <;> omega)⟩
      · exact ⟨_, _, rfl, .inr (by rw [toNat_ofNat_of_lt] <;> omega)⟩

/-- The byte after the bytes of a text is the first of the rest. -/
theorem getElem?_encode_append (u w : List Char) (k : Nat) :
    (encode (u ++ w))[size u + k]? = (encode w)[k]? := by
  rw [encode_append, ← length_encode, List.getElem?_append_right (Nat.le_add_right _ _),
    Nat.add_sub_cancel_left]

end ImportLint.Utf8

import ImportLint.Proofs.Text.Utf8

/-!
# Decoding with replacement characters

Whatever bytes stand around it, a byte below 128 is a character of its own: it goes on with no
other, and no other byte stands for its character. So bytes that are cut at such a byte can be
decoded part by part, whether they are UTF-8 or not.
-/

namespace ImportLint.Utf8

/-! ## Bytes below 128 -/

/-- The bytes that may follow a first byte are no characters of their own. -/
theorem le_of_lead? {b : UInt8} {value : Nat} {ranges : List (UInt8 × UInt8)}
    (h : lead? b = some (value, ranges)) : ∀ range ∈ ranges, 0x80 ≤ range.1.toNat := by
  intro range hrange
  have hcont : (0x80 : Nat) ≤ continuation.1.toNat := by decide
  unfold lead? at h
  split at h
  · cases h
    cases hrange
  split at h
  · cases h
  split at h
  · cases h
    rcases List.mem_singleton.1 hrange with rfl
    exact hcont
  -- The second of more bytes has a range of its own.
  split at h
  · cases h
    simp only [List.mem_cons, List.not_mem_nil, or_false] at hrange
    rcases hrange with rfl | rfl
    · split
      · decide
      · split <;> decide
    · exact hcont
  split at h
  · cases h
    simp only [List.mem_cons, List.not_mem_nil, or_false] at hrange
    rcases hrange with rfl | rfl | rfl
    · split
      · decide
      · split <;> decide
    · exact hcont
    · exact hcont
  · cases h

/-- No bytes are decoded as no text. -/
@[simp] theorem decodeLossy_nil : decodeLossy [] = [] := by
  rw [decodeLossy, units]
  rfl

section

variable {b : UInt8} (hb : b.toNat < 0x80)

include hb

/-- An ASCII byte is read as its character. -/
theorem next_of_lt (r : List UInt8) : next b r = (some (Char.ofNat b.toNat), r) := by
  rw [next, lead?_one hb]
  rfl

/-- An ASCII byte ends what follows a leading byte. -/
theorem follow_append {ranges : List (UInt8 × UInt8)}
    (hranges : ∀ range ∈ ranges, 0x80 ≤ range.1.toNat) (value : Nat) (s r : List UInt8) :
    follow value ranges (s ++ b :: r) =
      ((follow value ranges s).1, (follow value ranges s).2 ++ b :: r) := by
  fun_induction follow value ranges s with
  | case1 value s => rfl
  | case2 value range ranges c s hc ih =>
    rw [List.cons_append, follow, if_pos hc,
      ih fun range hrange => hranges range (List.mem_cons_of_mem _ hrange)]
  | case3 value range ranges c s hc => rw [List.cons_append, follow, if_neg hc]
  | case4 value range ranges =>
    -- The byte is in no range, so the character before it breaks off.
    have hlow : 0x80 ≤ range.1.toNat := hranges range List.mem_cons_self
    have hout : ¬ (decide (range.1 ≤ b) && decide (b ≤ range.2)) = true := by
      rw [Bool.and_eq_true, decide_eq_true_eq, UInt8.le_iff_toNat_le]
      omega
    rw [List.nil_append, follow, if_neg hout]

/-- An ASCII byte belongs to no character that is read before it. -/
theorem next_append (c : UInt8) (s r : List UInt8) :
    next c (s ++ b :: r) = ((next c s).1, (next c s).2 ++ b :: r) := by
  unfold next
  split
  · next value ranges h => exact follow_append hb (le_of_lead? h) value s r
  · rfl

/-- An ASCII byte is a unit of its own wherever it stands. -/
theorem units_append (s r : List UInt8) :
    units (s ++ b :: r) = units s ++ some (Char.ofNat b.toNat) :: units r := by
  fun_induction units s with
  | case1 => rw [List.nil_append, units_cons, next_of_lt hb, List.nil_append]
  | case2 c s ih => rw [List.cons_append, units_cons, next_append hb, ih, List.cons_append]

/-- **Bytes around one below 128** are decoded apart, and the byte is its own character. -/
theorem decodeLossy_append (s r : List UInt8) :
    decodeLossy (s ++ b :: r) = decodeLossy s ++ Char.ofNat b.toNat :: decodeLossy r := by
  rw [decodeLossy, units_append hb, List.map_append, List.map_cons]
  rfl

/-- An ASCII byte in front is decoded as its character. -/
theorem decodeLossy_cons (r : List UInt8) :
    decodeLossy (b :: r) = Char.ofNat b.toNat :: decodeLossy r := by
  rw [← List.nil_append (b :: r), decodeLossy_append hb, decodeLossy_nil, List.nil_append]

end

/-! ## Characters below 128 -/

/-- What follows a leading byte leaves the rest of the bytes. -/
theorem follow_suffix (value : Nat) (ranges : List (UInt8 × UInt8)) (s : List UInt8) :
    (follow value ranges s).2 <:+ s := by
  fun_induction follow value ranges s with
  | case1 => exact List.suffix_rfl
  | case2 value range ranges c s hc ih => exact ih.trans (List.suffix_cons c s)
  | case3 => exact List.suffix_rfl
  | case4 => exact List.suffix_rfl

/-- Reading a unit leaves the rest of the bytes. -/
theorem next_suffix (b : UInt8) (r : List UInt8) : (next b r).2 <:+ r := by
  unfold next
  split
  · exact follow_suffix ..
  · exact List.suffix_rfl

/-- A character below 128 is there only where its byte is. -/
theorem mem_of_mem_decodeLossy {c : Char} (hc : c.toNat < 0x80) {bytes : List UInt8}
    (h : c ∈ decodeLossy bytes) : UInt8.ofNat c.toNat ∈ bytes := by
  unfold decodeLossy at h
  fun_induction units bytes with
  | case1 => cases h
  | case2 b r ih =>
    rw [List.map_cons, List.mem_cons] at h
    rcases h with h | h
    · cases hnext : next b r with
      | mk unit rest =>
        rw [hnext] at h
        -- What stands for bytes that are none of UTF-8 is no ASCII character.
        cases unit with
        | none =>
          obtain rfl : c = Char.ofNat 0xFFFD := h
          exact absurd hc (by decide)
        | some d =>
          obtain rfl : c = d := h
          have hbytes := eq_encodeChar_of_next hnext
          rw [encodeChar_eq, if_pos (by omega)] at hbytes
          rw [hbytes]
          exact List.mem_append_left rest List.mem_cons_self
    · exact List.mem_cons_of_mem b ((next_suffix b r).subset (ih h))

/-- Without replacement characters, bytes decode to what was encoded. -/
theorem eq_encode_of_decodeLossy {bytes : List UInt8} (h : Char.ofNat 0xFFFD ∉ decodeLossy bytes) :
    bytes = encode (decodeLossy bytes) := by
  refine eq_encode_of_units ?_
  rw [decodeLossy, List.map_map]
  refine (List.map_id _).symm.trans (List.map_congr_left fun unit hunit => ?_)
  cases unit with
  | none => exact absurd (List.mem_map.2 ⟨none, hunit, rfl⟩) h
  | some c => rfl

/-- What was encoded has no replacement characters but its own. -/
theorem decodeLossy_encode (s : List Char) : decodeLossy (encode s) = s := by
  rw [decodeLossy, units_encode, List.map_map]
  exact List.map_id s

end ImportLint.Utf8

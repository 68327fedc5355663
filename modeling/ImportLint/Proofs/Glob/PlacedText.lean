import ImportLint.Proofs.Glob.BraceLexeme
import ImportLint.Proofs.Glob.Places

/-!
# Places of a text

The bytes of a text have places between its characters, and there nothing goes wrong: what is cut
from one of them to another is a text again, a class ends where it ends in the text, and a search
that stops at some ASCII characters only goes from character to character and from class to class.
-/

namespace ImportLint.Glob

open Utf8

/-! ## Slices of texts -/

/-- The place behind the first characters of a text is a boundary. -/
theorem isBoundary_size (u w : List Char) : isBoundary (encode (u ++ w)) (size u) = true := by
  have hbyte := getElem?_encode_append u w 0
  rw [Nat.add_zero] at hbyte
  unfold isBoundary
  rw [hbyte]
  cases w with
  | nil =>
    show (size u == (encode (u ++ [])).length) = true
    rw [length_encode, List.append_nil, beq_self_eq_true]
  | cons c w =>
    obtain ⟨b, bs, hc, hb⟩ := exists_encodeChar_eq_cons c
    rw [encode_cons, hc]
    simpa using hb

/-- A part of a text is cut out by its places. -/
theorem slice_encode (u t w : List Char) :
    slice (encode (u ++ (t ++ w))) (size u) (size u + size t) = .ok (encode t) := by
  have hstop := isBoundary_size (u ++ t) w
  rw [List.append_assoc, size_append] at hstop
  have hlen : size u + size t ≤ (encode (u ++ (t ++ w))).length := by
    simp only [length_encode, size_append]
    omega
  rw [slice, if_pos ⟨Nat.le_add_right _ _, hlen⟩, isBoundary_size, hstop]
  simp only [Bool.and_self, if_true, encode_append]
  rw [List.drop_take, ← length_encode u, List.drop_left, Nat.add_sub_cancel_left,
    ← length_encode t, List.take_left]

/-! ## Classes -/

/-- The byte behind some characters is that of an ASCII character exactly if the rest starts with
it. -/
theorem getElem?_encode_eq_iff {a : Char} (ha : a.toNat ≤ 127) (u w : List Char) :
    (encode (u ++ w))[size u]? = some (ascii a) ↔ w.head? = some a := by
  have hbyte := getElem?_encode_append u w 0
  rw [Nat.add_zero] at hbyte
  rw [hbyte, ← List.head?_eq_getElem?, head?_encode_eq_iff ha]

/-- The byte of an ASCII character is found only where the character is. -/
theorem findIdx?_encode_of_notMem {a : Char} (ha : a.toNat ≤ 127) {m : List Char} (hm : a ∉ m) :
    (encode m).findIdx? (· == ascii a) = none := by
  rw [List.findIdx?_eq_none_iff]
  intro b hb
  rw [beq_eq_false_iff_ne]
  rintro rfl
  exact hm ((ascii_mem_encode_iff ha).1 hb)

/-- An ASCII character is found in the bytes of a text where it is in the text. -/
theorem findIdx?_encode {a : Char} (ha : a.toNat ≤ 127) {m : List Char} (hm : a ∉ m)
    (rest : List Char) : (encode (m ++ a :: rest)).findIdx? (· == ascii a) = some (size m) := by
  rw [encode_append, List.findIdx?_append, findIdx?_encode_of_notMem ha hm,
    encode_cons_ascii ha, List.findIdx?_cons]
  simp

/-- What follows a character, if a text starts with it. -/
def dropChar (c : Char) (w : List Char) : List Char := if w.head? = some c then w.tail else w

/-- A first character is dropped if it is the one in question. -/
theorem dropChar_cons (c d : Char) (w : List Char) :
    dropChar c (d :: w) = if d = c then w else d :: w := by
  simp [dropChar]

/-- Skipping the byte of a character is dropping the character. -/
theorem exists_skipChar_encode {c : Char} (hc : c.toNat ≤ 127) (u w : List Char) :
    ∃ v, u ++ w = v ++ dropChar c w ∧ skipChar (encode (u ++ w)) c (size u) = size v := by
  simp only [skipChar, dropChar, getElem?_encode_eq_iff hc]
  by_cases h : w.head? = some c
  · obtain ⟨w, rfl⟩ : ∃ w', w = c :: w' := by cases w <;> simp_all
    exact ⟨u ++ [c], by simp, by rw [if_pos h, size_concat_ascii hc]⟩
  · exact ⟨u, by rw [if_neg h], by rw [if_neg h]⟩

/-- What the end of a class is looked for in: what follows its marks. -/
def classRest (r : List Char) : List Char := dropChar ']' (dropChar '!' r)

section

variable {r rest : List Char} {b : Bracket}

/-- Skipping the marks of a class in bytes is dropping them in characters. -/
theorem exists_classStart_encode (u r : List Char) : ∃ v, u ++ '[' :: r = v ++ classRest r ∧
    classStart (encode (u ++ '[' :: r)) (size u) = size v := by
  obtain ⟨v, hv, hskip⟩ := exists_skipChar_encode (show '!'.toNat ≤ 127 by decide) (u ++ ['[']) r
  obtain ⟨w, hw, hskip'⟩ :=
    exists_skipChar_encode (show ']'.toNat ≤ 127 by decide) v (dropChar '!' r)
  rw [← hv] at hw hskip'
  rw [List.append_assoc, List.singleton_append] at hv hw hskip hskip'
  refine ⟨w, hw, ?_⟩
  rw [← hskip', ← hskip, size_append]
  rfl

/-- A class ends at the first closing bracket after its marks. -/
theorem exists_classRest_of_split (h : Bracket.split r = some (b, rest)) :
    ∃ m, classRest r = m ++ ']' :: rest ∧ ']' ∉ m := by
  rw [Bracket.split_eq_some_iff, Bracket.splitMembers_eq_some_iff] at h
  obtain ⟨⟨c, m, -, hm, hr⟩, hbang⟩ := h
  have hdrop : dropChar '!' r = c :: (m ++ ']' :: rest) := by
    rw [dropChar, ← hr]
    simp only [hbang]
  rw [classRest, hdrop, dropChar_cons]
  by_cases hc : c = ']'
  · exact ⟨m, by rw [if_pos hc], hm⟩
  · exact ⟨c :: m, by rw [if_neg hc, List.cons_append], by simp [Ne.symm hc, hm]⟩

/-- What follows the marks of an open bracket has no closing one. -/
theorem notMem_classRest_of_split (h : Bracket.split r = none) : ']' ∉ classRest r := by
  rw [Bracket.split_eq_none_iff] at h
  have hdrop : dropChar '!' r = if r.head? = some '!' then r.tail else r := rfl
  rw [← hdrop] at h
  rw [classRest]
  cases hr : dropChar '!' r with
  | nil => simp [dropChar]
  | cons c w =>
    rw [hr, List.tail_cons] at h
    rw [dropChar_cons]
    by_cases hc : c = ']'
    · rwa [if_pos hc]
    · rw [if_neg hc]
      simp [Ne.symm hc, h]

/-- The place after a class. -/
theorem skipClass_encode (u : List Char) (h : Bracket.split r = some (b, rest)) :
    skipClass (encode (u ++ '[' :: r)) (size u) = .ok (size u + size b.text) := by
  obtain ⟨v, hv, hstart⟩ := exists_classStart_encode u r
  obtain ⟨m, hm, hclose⟩ := exists_classRest_of_split h
  have hfind := findIdx?_encode (show ']'.toNat ≤ 127 by decide) hclose rest
  -- Both places are as far from the end of the text.
  have hplace : size v + size m + 1 = size u + size b.text := by
    have hsize := congrArg size hv
    rw [hm, ← Bracket.text_append_of_split h] at hsize
    simp only [size_append, size_cons, utf8Size_ascii (show ']'.toNat ≤ 127 by decide)] at hsize
    omega
  rw [skipClass, hstart, hv, if_pos (by rw [length_encode, size_append]; omega),
    encode_append, ← length_encode v, List.drop_left, hm, hfind, ← hplace, length_encode]

/-- Only the bracket itself is skipped if it opens no class. -/
theorem skipClass_encode_of_none (u : List Char) (h : Bracket.split r = none) :
    skipClass (encode (u ++ '[' :: r)) (size u) = .ok (size u + 1) := by
  obtain ⟨v, hv, hstart⟩ := exists_classStart_encode u r
  have hfind :=
    findIdx?_encode_of_notMem (show ']'.toNat ≤ 127 by decide) (notMem_classRest_of_split h)
  rw [skipClass, hstart, hv, if_pos (by rw [length_encode, size_append]; omega),
    encode_append, ← length_encode v, List.drop_left, hfind]

end

/-! ## Going past text -/

/-- Whether a search goes past all bytes but those of some characters. -/
def StopsOnlyAt (stops : List Char) {σ ρ : Type}
    (visit : σ → Nat → UInt8 → Except PlaceFault (σ ⊕ ρ)) : Prop :=
  ∀ st i b, b ∉ stops.map ascii → visit st i b = .ok (.inl st)

/-- The search for the end of a group stops only at braces and commas. -/
theorem stopsOnlyAt_visitGroup : StopsOnlyAt ['\x7b', '\x7d', ','] visitGroup := by
  rintro ⟨depth, commas⟩ i b hb
  simp only [List.map_cons, List.map_nil, List.mem_cons, List.not_mem_nil, or_false, not_or] at hb
  simp only [visitGroup]
  rw [if_neg hb.1, if_neg hb.2.1, if_neg fun h => hb.2.2 h.1]

/-- The search for a group stops only at opening braces. -/
theorem stopsOnlyAt_visitBrace (s : List UInt8) : StopsOnlyAt ['\x7b'] (visitBrace s) := by
  rintro ⟨⟩ i b hb
  simp only [visitBrace]
  rw [if_neg (by simpa using hb)]

section

variable {σ ρ : Type} {visit : σ → Nat → UInt8 → Except PlaceFault (σ ⊕ ρ)} (st : σ)

/-- A search goes past bytes at which it does not stop. -/
theorem search_bytes (x y : List UInt8) {bs : List UInt8}
    (hbs : ∀ b ∈ bs, b ≠ ascii '[' ∧ ∀ i, visit st i b = .ok (.inl st)) :
    search visit (x ++ (bs ++ y)) st x.length =
      search visit (x ++ (bs ++ y)) st (x.length + bs.length) := by
  induction bs generalizing x with
  | nil => rfl
  | cons b bs ih =>
    obtain ⟨hbracket, hpass⟩ := hbs b List.mem_cons_self
    have hbyte : (x ++ (b :: bs ++ y))[x.length]? = some b := by simp
    have hrest := ih (x ++ [b]) fun c hc => hbs c (List.mem_cons_of_mem b hc)
    rw [search_of_visit hbyte hbracket, hpass]
    simpa [Nat.add_assoc, Nat.add_comm 1] using hrest

/-- A character at which a search does not stop is passed. -/
theorem search_char {stops : List Char} (hvisit : StopsOnlyAt stops visit)
    (hstops : ∀ a ∈ stops, a.toNat ≤ 127) (u w : List Char) {c : Char}
    (hbracket : c ≠ '[') (hc : c ∉ stops) :
    search visit (encode (u ++ c :: w)) st (size u) =
      search visit (encode (u ++ c :: w)) st (size (u ++ [c])) := by
  have hbs (b : UInt8) (hb : b ∈ String.utf8EncodeChar c) :
      b ≠ ascii '[' ∧ ∀ i, visit st i b = .ok (.inl st) := by
    have hne (a : Char) (ha : a.toNat ≤ 127) (hba : b = ascii a) : c = a :=
      (ascii_mem_encodeChar_iff ha).1 (hba ▸ hb)
    refine ⟨fun hba => hbracket (hne '[' (by decide) hba), fun i => hvisit st i b fun hmem => ?_⟩
    obtain ⟨a, ha, hba⟩ := List.mem_map.1 hmem
    exact hc (hne a (hstops a ha) hba.symm ▸ ha)
  have hpass := search_bytes st (encode u) (encode w) hbs
  have hlen : (String.utf8EncodeChar c).length = size [c] := by
    rw [← length_encode, encode, List.flatMap_singleton]
  rwa [← encode_cons, ← encode_append, length_encode, hlen, ← size_append] at hpass

/-- A class is passed. -/
theorem search_class (u : List Char) {r rest : List Char} {b : Bracket}
    (h : Bracket.split r = some (b, rest)) :
    search visit (encode (u ++ '[' :: r)) st (size u) =
      search visit (encode (u ++ '[' :: r)) st (size (u ++ b.text)) := by
  have hbyte := (getElem?_encode_eq_iff (show '['.toNat ≤ 127 by decide) u ('[' :: r)).2 rfl
  rw [search_of_skipClass hbyte (skipClass_encode u h), size_append]

/-- A bracket that opens no class is passed. -/
theorem search_openBracket (u : List Char) {r : List Char} (h : Bracket.split r = none) :
    search visit (encode (u ++ '[' :: r)) st (size u) =
      search visit (encode (u ++ '[' :: r)) st (size (u ++ ['['])) := by
  have hbyte := (getElem?_encode_eq_iff (show '['.toNat ≤ 127 by decide) u ('[' :: r)).2 rfl
  rw [search_of_skipClass hbyte (skipClass_encode_of_none u h), size_append]
  rfl

/-- An ASCII character other than a bracket is looked at. -/
theorem search_ascii (u w : List Char) {a : Char} (ha : a.toNat ≤ 127) (hbracket : a ≠ '[') :
    search visit (encode (u ++ a :: w)) st (size u) =
      match visit st (size u) (ascii a) with
      | .ok (.inl st) => search visit (encode (u ++ a :: w)) st (size u + 1)
      | .ok (.inr answer) => .ok (some answer)
      | .error fault => .error fault := by
  have hbyte := (getElem?_encode_eq_iff ha u (a :: w)).2 rfl
  refine search_of_visit hbyte fun h => hbracket ?_
  have hmem : ascii a ∈ String.utf8EncodeChar '[' :=
    h ▸ (ascii_mem_encodeChar_iff (by decide)).2 rfl
  exact ((ascii_mem_encodeChar_iff ha).1 hmem).symm

/-- A search finds nothing at the end of a text. -/
theorem search_end (u : List Char) : search visit (encode u) st (size u) = .ok none := by
  refine search_of_none ?_
  rw [← length_encode, List.getElem?_length]

end

end ImportLint.Glob

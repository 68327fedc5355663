/-!
# UTF-8

Bytes as characters and back. Bytes that are no UTF-8 can be read as replacement characters, one for
each longest run of bytes that some character starts with.
-/

namespace ImportLint.Utf8

/-- The bytes of a text. -/
def encode (s : List Char) : List UInt8 := s.flatMap String.utf8EncodeChar

/-- How many bytes a text has. -/
def size : List Char → Nat
  | [] => 0
  | c :: s => c.utf8Size + size s

/-- No text takes no bytes. -/
@[simp] theorem size_nil : size [] = 0 := rfl

/-- A text takes the bytes of its first character and those of the others. -/
@[simp] theorem size_cons (c : Char) (s : List Char) : size (c :: s) = c.utf8Size + size s := rfl

/-- Two texts together take the bytes of both. -/
@[simp] theorem size_append (s t : List Char) : size (s ++ t) = size s + size t := by
  induction s with
  | nil => simp
  | cons c s ih => simp [ih, Nat.add_assoc]

/-- The size of a text is the number of bytes it is encoded in. -/
@[simp] theorem length_encode (s : List Char) : (encode s).length = size s := by
  induction s with
  | nil => rfl
  | cons c s ih => simp [encode, size, ← ih]

/-- The bytes that may go on with a character. -/
def continuation : UInt8 × UInt8 := (0x80, 0xBF)

/-- What a first byte announces: its part of the value, and the range of each byte that has to
follow. A character is written in as few bytes as it can be and is no half of a surrogate pair,
which limits the second byte. -/
def lead? (b : UInt8) : Option (Nat × List (UInt8 × UInt8)) :=
  if b < 0x80 then some (b.toNat, [])
  else if b < 0xC2 then none
  else if b < 0xE0 then some (b.toNat % 32, [continuation])
  else if b < 0xF0 then
    let second :=
      if b == 0xE0 then (0xA0, 0xBF) else if b == 0xED then (0x80, 0x9F) else continuation
    some (b.toNat % 16, [second, continuation])
  else if b < 0xF5 then
    let second :=
      if b == 0xF0 then (0x90, 0xBF) else if b == 0xF4 then (0x80, 0x8F) else continuation
    some (b.toNat % 8, [second, continuation, continuation])
  else none

/-- Read the bytes that have to follow. The answer is the character, or `none` if they break off,
and the bytes left. -/
def follow (value : Nat) : List (UInt8 × UInt8) → List UInt8 → Option Char × List UInt8
  | [], r => (some (Char.ofNat value), r)
  | range :: ranges, b :: r =>
    if range.1 ≤ b && b ≤ range.2 then follow (value * 64 + b.toNat % 64) ranges r else
      (none, b :: r)
  | _ :: _, [] => (none, [])

/-- Read the first character of some bytes. -/
def next (b : UInt8) (r : List UInt8) : Option Char × List UInt8 :=
  match lead? b with
  | some (value, ranges) => follow value ranges r
  | none => (none, r)

/-- Reading what follows a leading byte leaves no more bytes than there were. -/
theorem length_follow_le (value : Nat) (ranges : List (UInt8 × UInt8)) (r : List UInt8) :
    (follow value ranges r).2.length ≤ r.length := by
  fun_induction follow value ranges r with
  | case1 => simp
  | case2 value range ranges b r _ ih => exact Nat.le_trans ih (by simp)
  | case3 => simp
  | case4 => simp

/-- Reading a character leaves no more bytes than follow its first. -/
theorem length_next_le (b : UInt8) (r : List UInt8) : (next b r).2.length ≤ r.length := by
  unfold next
  split
  · exact length_follow_le ..
  · simp

/-- Bytes as the characters they encode, with `none` for what encodes none. -/
def units : List UInt8 → List (Option Char)
  | [] => []
  | b :: r => (next b r).1 :: units (next b r).2
termination_by s => s.length
decreasing_by
  have := length_next_le b r
  simp only [List.length_cons]
  omega

/-- Bytes as a text, if they are UTF-8. -/
def decode? (bytes : List UInt8) : Option (List Char) := (units bytes).mapM id

/-- Bytes as a text, with replacement characters for what is no UTF-8. -/
def decodeLossy (bytes : List UInt8) : List Char := (units bytes).map (·.getD (Char.ofNat 0xFFFD))

end ImportLint.Utf8

import ImportLint.Json.Reader

/-!
# The size of JSON numbers

A number must be smaller than the least that rounds beyond every double. A long exponent settles the
matter alone, so that no huge power is ever computed.
-/

namespace ImportLint.Json

/-- The least number that is too large: halfway from the largest double to the next power of two. -/
def tooLarge : Nat := Nat.pow 2 1024 - Nat.pow 2 970

/-- The parts of a spelled number: its digits as one number, how many of them follow the point, and
its exponent. -/
def parts (spelling : List Char) : Nat × Nat × Int :=
  let unsigned := spelling.dropWhile (· == '-')
  let whole := unsigned.takeWhile Char.isDigit
  let rest := unsigned.dropWhile Char.isDigit
  let fraction := if rest.head? == some '.' then rest.tail.takeWhile Char.isDigit else []
  let exponent := rest.dropWhile fun c => !(c == 'e' || c == 'E')
  let power : Int := Decimal.ofDigits (exponent.filter Char.isDigit)
  (Decimal.ofDigits (whole ++ fraction), fraction.length,
    if exponent.any (· == '-') then -power else power)

/-- Whether a number is small enough. -/
def isInRange (spelling : List Char) : Bool :=
  let (n, places, power) := parts spelling
  let shift := power - places
  if n == 0 || shift < -(spelling.length : Int) then true
  else if 400 < shift then false
  else if 0 ≤ shift then n * Nat.pow 10 shift.toNat < tooLarge
  else n < tooLarge * Nat.pow 10 (-shift).toNat

end ImportLint.Json

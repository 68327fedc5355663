/-!
# Decimal numerals

Natural numbers as digits and back.
-/

namespace ImportLint.Decimal

/-- The character of a digit below ten. -/
def digit (n : Nat) : Char := Char.ofNat (48 + n)

/-- The value of a digit. -/
def value (c : Char) : Nat := c.toNat - 48

/-- The digits of a number, at least one and none of them an idle zero. -/
def digits (n : Nat) : List Char :=
  if n < 10 then [digit n] else digits (n / 10) ++ [digit (n % 10)]
termination_by n
decreasing_by omega

/-- A number in decimal. -/
def numeral (n : Nat) : String := String.ofList (digits n)

/-- The number that digits stand for. -/
def ofDigits (ds : List Char) : Nat := ds.foldl (fun n c => n * 10 + value c) 0

end ImportLint.Decimal

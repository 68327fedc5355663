import ImportLint.Text.Decimal
import Mathlib.Data.List.Basic

/-!
# Decimal numerals read back

The digits of a number stand for it, and none of them is an idle zero ahead of others.
-/

namespace ImportLint.Decimal

variable {n : Nat}

/-- The digit of a number below ten is one. -/
theorem isDigit_digit (hn : n < 10) : (digit n).isDigit = true := by
  revert n
  decide

/-- A digit has the value of its number. -/
theorem value_digit (hn : n < 10) : value (digit n) = n := by
  revert n
  decide

/-- Only zero has the digit zero. -/
theorem digit_ne_zero (hn : n < 10) (hpos : 0 < n) : digit n ≠ '0' := by
  revert n
  decide

/-- A number below ten has one digit. -/
theorem digits_of_lt (hn : n < 10) : digits n = [digit n] := by
  rw [digits, if_pos hn]

/-- Any other number has the digits of its tenth, and one more. -/
theorem digits_of_le (hn : 10 ≤ n) : digits n = digits (n / 10) ++ [digit (n % 10)] := by
  rw [digits, if_neg (Nat.not_lt.2 hn)]

/-- Every number has a digit. -/
theorem digits_ne_nil (n : Nat) : digits n ≠ [] := by
  rw [digits]
  split <;> simp

/-- The digits of a number are digits. -/
theorem isDigit_of_mem_digits {c : Char} (hc : c ∈ digits n) : c.isDigit = true := by
  induction n using digits.induct with
  | case1 n hn =>
    rw [digits_of_lt hn, List.mem_singleton] at hc
    exact hc ▸ isDigit_digit hn
  | case2 n hn ih =>
    rw [digits_of_le (Nat.le_of_not_lt hn), List.mem_append, List.mem_singleton] at hc
    rcases hc with hc | rfl
    · exact ih hc
    · exact isDigit_digit (Nat.mod_lt n (by decide))

/-- A number other than zero starts with a digit other than zero. -/
theorem head?_digits_ne_zero (hpos : 0 < n) : (digits n).head? ≠ some '0' := by
  induction n using digits.induct with
  | case1 n hn =>
    rw [digits_of_lt hn, List.head?_cons, Ne, Option.some.injEq]
    exact digit_ne_zero hn hpos
  | case2 n hn ih =>
    rw [digits_of_le (Nat.le_of_not_lt hn), List.head?_append_of_ne_nil _ (digits_ne_nil _)]
    exact ih (by omega)

/-- A digit behind others makes ten times their number, and its own value. -/
theorem ofDigits_append_singleton (ds : List Char) (c : Char) :
    ofDigits (ds ++ [c]) = ofDigits ds * 10 + value c := by
  rw [ofDigits, List.foldl_append]
  rfl

/-- **The digits of a number** stand for it. -/
theorem ofDigits_digits (n : Nat) : ofDigits (digits n) = n := by
  induction n using digits.induct with
  | case1 n hn =>
    rw [digits_of_lt hn, ← List.nil_append [digit n], ofDigits_append_singleton, value_digit hn]
    exact Nat.zero_add n
  | case2 n hn ih =>
    rw [digits_of_le (Nat.le_of_not_lt hn), ofDigits_append_singleton, ih,
      value_digit (Nat.mod_lt n (by decide))]
    omega

end ImportLint.Decimal

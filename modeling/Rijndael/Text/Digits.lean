/-!
# Numbers as digits

Reading decimal numbers and writing hexadecimal ones.
-/

namespace Rijndael.Text

/-- The value of a decimal digit. -/
def decimalDigit? (c : Char) : Option Nat :=
  if '0' ≤ c ∧ c ≤ '9' then some (c.toNat - '0'.toNat) else none

/-- The value of a row of decimal digits after `value`, if there are only
digits. -/
def decimalFrom (value : Nat) : List Char → Option Nat
  | [] => some value
  | c :: rest => (decimalDigit? c).bind fun digit => decimalFrom (10 * value + digit) rest

/-- The number that a text states in decimal digits, with an optional plus
sign before them. There must be a digit, leading zeros are allowed, and
numbers from `2 ^ 64` on are refused. -/
def number64? (text : String) : Option UInt64 :=
  let digits := match text.toList with
    | '+' :: rest => rest
    | all => all
  if digits.isEmpty then
    none
  else
    (decimalFrom 0 digits).bind fun n =>
      if n < 18446744073709551616 then some (UInt64.ofNat n) else none

/-- A number in hexadecimal digits, with small letters and no leading zero. -/
def hexNumber (n : Nat) : String := String.ofList (Nat.toDigits 16 n)

end Rijndael.Text

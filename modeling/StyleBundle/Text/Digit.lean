import StyleBundle.Text.Basic

/-!
# Digits

Decimal and hexadecimal digits and the numbers that they write.
-/

namespace StyleBundle

namespace Digit

/-- The value of a decimal digit. -/
def decimal? (c : Char) : Option Nat :=
  if '0' ≤ c ∧ c ≤ '9' then some (c.toNat - '0'.toNat) else none

/-- The value of a hexadecimal digit. -/
def hex? (c : Char) : Option Nat :=
  if '0' ≤ c ∧ c ≤ '9' then some (c.toNat - '0'.toNat)
  else if 'a' ≤ c ∧ c ≤ 'f' then some (c.toNat - 'a'.toNat + 10)
  else if 'A' ≤ c ∧ c ≤ 'F' then some (c.toNat - 'A'.toNat + 10)
  else none

/-- Whether the character is a decimal digit. -/
def isDecimal (c : Char) : Bool :=
  (decimal? c).isSome

/-- Whether the character is a hexadecimal digit. -/
def isHex (c : Char) : Bool :=
  (hex? c).isSome

/-- The hexadecimal digit of a value below sixteen, in lower case. -/
def ofHex (n : Nat) : Char :=
  if n < 10 then Char.ofNat ('0'.toNat + n) else Char.ofNat ('a'.toNat + (n - 10))

/-- The number that digits write in a base up to sixteen. -/
def number (base : Nat) (digits : Text) : Nat :=
  digits.foldl (fun n c => n * base + (hex? c).getD 0) 0

end Digit

end StyleBundle

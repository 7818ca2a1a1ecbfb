/-!
# Double precision numbers

A finite double is a sign and a magnitude, and a magnitude is a mantissa times a power of two.
All arithmetic is exact arithmetic on natural numbers followed by one rounding to nearest, ties to
even (`Magnitude.ofRatio?`).

`Magnitude.ofParts?` reads a decimal number from its digits and its power of ten with one rounding
for the digits and one for each power of ten.
-/

namespace StyleBundle

/-- A finite double without its sign: `mantissa` times two to the power `exponent`. -/
structure Magnitude where
  /-- The mantissa, less than two to the power 53. -/
  mantissa : Nat
  /-- The power of two. -/
  exponent : Int
deriving DecidableEq

namespace Magnitude

/-- The least power of two. -/
def leastExponent : Int := -1074

/-- The greatest power of two. -/
def greatestExponent : Int := 971

/-- Zero. -/
def zero : Magnitude := ⟨0, leastExponent⟩

/-- The quotient rounded to the nearest natural number, ties to even. -/
def divideHalfEven (num den : Nat) : Nat :=
  let quotient := num / den
  let twice := 2 * (num % den)
  if twice < den then quotient
  else if den < twice then quotient + 1
  else if quotient % 2 = 0 then quotient
  else quotient + 1

/-- The ratio `num / den` divided by two to the power `exponent`, as a ratio. -/
def unscale (num den : Nat) (exponent : Int) : Nat × Nat :=
  if 0 ≤ exponent then (num, den * Nat.pow 2 exponent.toNat)
  else (num * Nat.pow 2 (-exponent).toNat, den)

/-- The power of two at which the ratio has a mantissa of 53 bits, or the least power. -/
def exponentOf (num den : Nat) : Int :=
  let guess := (num.log2 : Int) - (den.log2 : Int) - 52
  let (n, d) := unscale num den guess
  max leastExponent (if n / d < Nat.pow 2 52 then guess - 1 else guess)

/-- The magnitude nearest to a ratio, unless the ratio is too large. -/
def ofRatio? (num den : Nat) : Option Magnitude :=
  if num = 0 then some zero
  else
    let exponent := exponentOf num den
    let (n, d) := unscale num den exponent
    let mantissa := divideHalfEven n d
    let rounded : Magnitude :=
      if mantissa = Nat.pow 2 53 then ⟨Nat.pow 2 52, exponent + 1⟩ else ⟨mantissa, exponent⟩
    if rounded.exponent ≤ greatestExponent then some rounded else none

/-- The magnitude as a ratio. -/
def ratio (x : Magnitude) : Nat × Nat :=
  if 0 ≤ x.exponent then (x.mantissa * Nat.pow 2 x.exponent.toNat, 1)
  else (x.mantissa, Nat.pow 2 (-x.exponent).toNat)

/-- The rounded product, unless it is too large. -/
def mul? (x y : Magnitude) : Option Magnitude :=
  ofRatio? (x.ratio.1 * y.ratio.1) (x.ratio.2 * y.ratio.2)

/-- The rounded quotient, unless it is too large. -/
def div? (x y : Magnitude) : Option Magnitude :=
  ofRatio? (x.ratio.1 * y.ratio.2) (x.ratio.2 * y.ratio.1)

/-- The greatest power of ten that is a finite double. -/
def greatestPower : Nat := 308

/-- A rounded power of ten. -/
def powerOfTen (n : Nat) : Magnitude :=
  (ofRatio? (Nat.pow 10 n) 1).getD zero

/-- Divides by ten to the power `n`, by at most the greatest power at a time.  A number with a
significand of 64 bits is zero after two full steps. -/
def shrink : (steps : Nat) → Magnitude → (n : Nat) → Option Magnitude
  | 0, x, _ => some x
  | steps + 1, x, n =>
    if n ≤ greatestPower then x.div? (powerOfTen n)
    else if x.mantissa = 0 then some x
    else (x.div? (powerOfTen greatestPower)).bind fun y => shrink steps y (n - greatestPower)

/-- The number with a significand of at most 64 bits and a power of ten, unless it is too
large. -/
def ofParts? (significand : Nat) (power : Int) : Option Magnitude := do
  let x ← ofRatio? significand 1
  if power < 0 then
    shrink 4 x (-power).toNat
  else if power.toNat ≤ greatestPower then
    x.mul? (powerOfTen power.toNat)
  else if x.mantissa = 0 then
    some x
  else
    none

end Magnitude

/-- A finite double. -/
structure Double where
  /-- Whether the sign is minus. -/
  negative : Bool
  /-- The value without the sign. -/
  magnitude : Magnitude
deriving DecidableEq

end StyleBundle

import StyleBundle.Number.Double

/-!
# Shortest decimal form

The decimal number with the fewest digits that rounds to a given double, and of those the one
nearest to it.

The reals that round to a double form an interval.  Its ends belong to it when the mantissa is
even.  `Decimal.search` tries the grids of multiples of powers of ten from coarse to fine, and on
each grid only the two neighbours of the double.
-/

namespace StyleBundle

/-- A decimal number: `digits` times ten to the power `power`. -/
structure Decimal where
  /-- The digits as a number. -/
  digits : Nat
  /-- The power of ten. -/
  power : Int
deriving DecidableEq

namespace Decimal

/-- The decimal without zeros at the end of its digits.  At most `steps` zeros are dropped. -/
def trimZeros : (steps : Nat) → Decimal → Decimal
  | 0, d => d
  | steps + 1, d =>
    if d.digits ≠ 0 && d.digits % 10 = 0 then trimZeros steps ⟨d.digits / 10, d.power + 1⟩ else d

/-- A quarter of the last place of a magnitude, in units of ten to the power `power`, as a
ratio. -/
def quarter (x : Magnitude) (power : Int) : Nat × Nat :=
  let (n, d) := (⟨1, x.exponent - 2⟩ : Magnitude).ratio
  if 0 ≤ power then (n, d * Nat.pow 10 power.toNat) else (n * Nat.pow 10 (-power).toNat, d)

/-- The lower end of the interval that rounds to `x`, in quarters of the last place. -/
def lowerQuarters (x : Magnitude) : Nat :=
  if x.mantissa = Nat.pow 2 52 && Magnitude.leastExponent < x.exponent then 4 * x.mantissa - 1
  else 4 * x.mantissa - 2

/-- The upper end of the interval that rounds to `x`, in quarters of the last place. -/
def upperQuarters (x : Magnitude) : Nat :=
  4 * x.mantissa + 2

/-- Whether `digits` times ten to the power `power` rounds to `x`. -/
def roundsTo (x : Magnitude) (digits : Nat) (power : Int) : Bool :=
  let (n, d) := quarter x power
  let low := lowerQuarters x * n
  let high := upperQuarters x * n
  if x.mantissa % 2 = 0 then low ≤ digits * d && digits * d ≤ high
  else low < digits * d && digits * d < high

/-- The neighbour of `x` on the grid of ten to the power `power` that rounds to `x`, the nearer
one if both do, the even one if they are equally near. -/
def neighbour? (x : Magnitude) (power : Int) : Option Decimal :=
  let (n, d) := quarter x power
  let value := 4 * x.mantissa * n
  let below := value / d
  let twice := 2 * (value % d)
  match roundsTo x below power, roundsTo x (below + 1) power with
  | true, true =>
    if twice < d || (twice = d && below % 2 = 0) then some ⟨below, power⟩
    else some ⟨below + 1, power⟩
  | true, false => some ⟨below, power⟩
  | false, true => some ⟨below + 1, power⟩
  | false, false => none

/-- The first neighbour on the grids from `power` downwards. -/
def search (x : Magnitude) : (steps : Nat) → (power : Int) → Decimal
  | 0, power => ⟨0, power⟩
  | steps + 1, power =>
    match neighbour? x power with
    | some found => found
    | none => search x steps (power - 1)

/-- A power of ten above the magnitude. -/
def powerAbove (x : Magnitude) : Int :=
  ((x.mantissa.log2 : Int) + x.exponent) * 30103 / 100000 + 2

/-- The shortest decimal that rounds to the magnitude. -/
def shortest (x : Magnitude) : Decimal :=
  if x.mantissa = 0 then ⟨0, 0⟩ else trimZeros 20 (search x 24 (powerAbove x))

/-- The power of ten of the first digit. -/
def leadingPower (d : Decimal) : Int :=
  d.power + (Nat.toDigits 10 d.digits).length - 1

end Decimal

end StyleBundle

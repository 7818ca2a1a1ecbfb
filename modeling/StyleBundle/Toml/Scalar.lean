import StyleBundle.Text.Digit
import StyleBundle.Toml.Basic

/-!
# Unquoted values of TOML

Truth values, whole numbers, floating point numbers, dates and times.  Such a value is a run of
letters, digits and a few signs; `Toml.unquoted?` tells what a whole run stands for.
-/

namespace StyleBundle

namespace Toml

/-! ## Numbers -/

/-- Digits that may be grouped by single underscores, without the underscores. -/
def groups? (isDigit : Char → Bool) (t : Text) : Option Text :=
  let pieces := t.split '_'
  if pieces.all fun piece => piece ≠ [] ∧ piece.all isDigit then some pieces.flatten else none

/-- The digits of a decimal number that does not start with a needless zero. -/
def decimal? (t : Text) : Option Text :=
  (groups? Digit.isDecimal t).filter fun digits => digits.length = 1 ∨ digits.head? ≠ some '0'

/-- A sign, and whether it is a minus. -/
def cutSign : Text → Bool × Text
  | '+' :: rest => (false, rest)
  | '-' :: rest => (true, rest)
  | t => (false, t)

/-- The number with a sign. -/
def signed (negative : Bool) (n : Nat) : Int :=
  if negative then -(n : Int) else n

/-- Whether the character is a digit of the base. -/
def isDigitOf (base : Nat) (c : Char) : Bool :=
  match Digit.hex? c with
  | some digit => digit < base
  | none => false

/-- A whole number. -/
def integer? : Text → Option Int
  | '0' :: 'x' :: rest => (groups? (isDigitOf 16) rest).map fun d => (Digit.number 16 d : Int)
  | '0' :: 'o' :: rest => (groups? (isDigitOf 8) rest).map fun d => (Digit.number 8 d : Int)
  | '0' :: 'b' :: rest => (groups? (isDigitOf 2) rest).map fun d => (Digit.number 2 d : Int)
  | t =>
    let (negative, rest) := cutSign t
    (decimal? rest).map fun d => signed negative (Digit.number 10 d)

/-- The least magnitude that is too large for a double. -/
def doubleLimit : Nat := Nat.pow 2 1024 - Nat.pow 2 970

/-- Whether the number written by digits and a power of ten is too large for a double. -/
def overflows (digits : Text) (power : Int) : Bool :=
  let significand := Digit.number 10 digits
  let size := (digits.dropWhile (· == '0')).length + power
  if significand = 0 ∨ size < 300 then false
  else if 320 < size then true
  else if 0 ≤ power then doubleLimit ≤ significand * Nat.pow 10 power.toNat
  else doubleLimit * Nat.pow 10 (-power).toNat ≤ significand

/-- Cuts off an exponent. -/
def cutExponent (t : Text) : Text × Option Text :=
  match t.span fun c => c != 'e' && c != 'E' with
  | (front, _ :: exponent) => (front, some exponent)
  | (front, []) => (front, none)

/-- The value of an exponent. -/
def exponent? (t : Text) : Option Int :=
  let (negative, rest) := cutSign t
  (groups? Digit.isDecimal rest).map fun d => signed negative (Digit.number 10 d)

/-- A floating point number that is written with a fraction or an exponent and is not too
large. -/
def decimalFloat? (t : Text) : Option Unit := do
  let (front, exponent) := cutExponent (cutSign t).2
  let (whole, fraction) :=
    match Text.cutFirst? '.' front with
    | some (whole, fraction) => (whole, some fraction)
    | none => (front, none)
  if fraction.isNone ∧ exponent.isNone then none
  let whole ← decimal? whole
  let fraction ←
    match fraction with
    | some fraction => groups? Digit.isDecimal fraction
    | none => some []
  let exponent ←
    match exponent with
    | some exponent => exponent? exponent
    | none => some 0
  if overflows (whole ++ fraction) (exponent - fraction.length) then none

/-- A floating point number. -/
def float? (t : Text) : Option Unit :=
  let rest := (cutSign t).2
  if rest = "inf".toList ∨ rest = "nan".toList then some () else decimalFloat? t

/-! ## Dates and times -/

/-- The number written by exactly `count` digits at the start, with the rest. -/
def fixed? (count : Nat) (t : Text) : Option (Nat × Text) :=
  let digits := t.take count
  if digits.length = count ∧ digits.all Digit.isDecimal then
    some (Digit.number 10 digits, t.drop count)
  else none

/-- The number with at least `width` digits. -/
def padded (width n : Nat) : Text :=
  let digits := Text.ofNat n
  List.replicate (width - digits.length) '0' ++ digits

/-- The number of days of a month. -/
def daysIn (year month : Nat) : Nat :=
  if month = 2 then
    if year % 4 = 0 ∧ (year % 100 ≠ 0 ∨ year % 400 = 0) then 29 else 28
  else if month = 4 ∨ month = 6 ∨ month = 9 ∨ month = 11 then 30
  else 31

/-- Reads a date and gives its canonical form. -/
def date? : Reader Text := fun t => do
  let (year, t) ← fixed? 4 t
  let t ← Text.after? ['-'] t
  let (month, t) ← fixed? 2 t
  let t ← Text.after? ['-'] t
  let (day, t) ← fixed? 2 t
  if 1 ≤ month ∧ month ≤ 12 ∧ 1 ≤ day ∧ day ≤ daysIn year month then
    return (padded 4 year ++ '-' :: padded 2 month ++ '-' :: padded 2 day, t)
  else none

/-- A fraction of a second to nine places, without zeros at its end. -/
def fractionText (digits : Text) : Text :=
  match ((digits.take 9).reverse.dropWhile (· == '0')).reverse with
  | [] => ['0']
  | kept => kept

/-- Reads the seconds of a time, which may be left out. -/
def seconds? : Reader Text
  | ':' :: t => do
    let (second, t) ← fixed? 2 t
    if 60 < second then none
    match t with
    | '.' :: rest =>
      match rest.takeWhile Digit.isDecimal with
      | [] => none
      | digits =>
        return (':' :: padded 2 second ++ '.' :: fractionText digits,
          rest.dropWhile Digit.isDecimal)
    | t => return (':' :: padded 2 second, t)
  | t => some ([], t)

/-- Reads a time of day and gives its canonical form. -/
def time? : Reader Text := fun t => do
  let (hour, t) ← fixed? 2 t
  let t ← Text.after? [':'] t
  let (minute, t) ← fixed? 2 t
  if 23 < hour ∨ 59 < minute then none
  let (seconds, t) ← seconds? t
  return (padded 2 hour ++ ':' :: padded 2 minute ++ seconds, t)

/-- Reads the offset of a time from the standard time, which may be left out. -/
def offset? : Reader Text
  | [] => some ([], [])
  | 'Z' :: t => some (['Z'], t)
  | 'z' :: t => some (['Z'], t)
  | sign :: t => do
    if sign ≠ '+' ∧ sign ≠ '-' then none
    let (hour, t) ← fixed? 2 t
    let t ← Text.after? [':'] t
    let (minute, t) ← fixed? 2 t
    if 23 < hour ∨ 59 < minute then none
    return (sign :: padded 2 hour ++ ':' :: padded 2 minute, t)

/-- The canonical form, when nothing is left over. -/
def whole? (read : Option (Text × Text)) : Option Text :=
  read.bind fun (value, rest) => if rest = [] then some value else none

/-- A date, a time or both. -/
def datetime? (t : Text) : Option Text :=
  match date? t with
  | some (date, []) => some date
  | some (date, mark :: rest) => do
    if mark ≠ 'T' ∧ mark ≠ 't' ∧ mark ≠ ' ' then none
    let (time, rest) ← time? rest
    let offset ← whole? (offset? rest)
    return date ++ 'T' :: time ++ offset
  | none => whole? (time? t)

/-! ## Runs -/

/-- Whether the character may stand in an unquoted value. -/
def isRunChar (c : Char) : Bool :=
  c.isAlphanum || c == '_' || c == '+' || c == '-' || c == '.' || c == ':'

/-- What a whole run stands for. -/
def unquoted? (run : Text) : Option Toml :=
  if run = "true".toList then some (.boolean true)
  else if run = "false".toList then some (.boolean false)
  else
    match datetime? run, integer? run, float? run with
    | some value, _, _ => some (.datetime value)
    | none, some value, _ => some (.integer value)
    | none, none, some _ => some .float
    | none, none, none => none

/-- The run at the start of a text.  A date goes on after one space when a digit follows. -/
def cutRun (t : Text) : Text × Text :=
  let (run, rest) := t.span isRunChar
  match whole? (date? run), rest with
  | some _, ' ' :: c :: more =>
    if Digit.isDecimal c then
      let (time, rest) := (c :: more).span isRunChar
      (run ++ ' ' :: time, rest)
    else (run, rest)
  | _, _ => (run, rest)

/-- Reads an unquoted value. -/
def scalarValue? : Reader Toml := fun t =>
  let (run, rest) := cutRun t
  (unquoted? run).map fun value => (value, rest)

end Toml

end StyleBundle

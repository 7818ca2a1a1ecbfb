import StyleBundle.Json.Basic
import StyleBundle.Number.Shortest
import StyleBundle.Text.Digit

/-!
# Writing JSON

`Json.compact` writes a value without any space, `Json.pretty` one item or member a line.

Doubles are written with the fewest digits that read back.  A number from 0.00001 up to 10^16 is
written without an exponent and always with a point.
-/

namespace StyleBundle

namespace Json

/-- A character as it is written between quotes. -/
def escape (c : Char) : Text :=
  match c with
  | '"' => "\\\"".toList
  | '\\' => "\\\\".toList
  | '\x08' => "\\b".toList
  | '\x0c' => "\\f".toList
  | '\n' => "\\n".toList
  | '\r' => "\\r".toList
  | '\t' => "\\t".toList
  | c =>
    if c.toNat < 0x20 then
      "\\u00".toList ++ [Digit.ofHex (c.toNat / 16), Digit.ofHex (c.toNat % 16)]
    else [c]

/-- A text between quotes. -/
def quote (t : Text) : Text :=
  '"' :: t.flatMap escape ++ ['"']

/-- The notation of doubles. -/
structure DoubleFormat where
  /-- The least power of ten of the first digit that is written without an exponent. -/
  leastPositional : Int
  /-- The first power of ten of the first digit that is written with an exponent again. -/
  leastScientific : Int

/-- Numbers from 0.00001 up to 10^16 are written without an exponent. -/
def doubleFormat : DoubleFormat := ⟨-5, 16⟩

/-- So many zeros. -/
def zeros (n : Nat) : Text :=
  List.replicate n '0'

/-- Digits with a point, for a number whose first digit stands for the power `leading`. -/
def positional (digits : Text) (leading : Int) : Text :=
  if leading < 0 then
    "0.".toList ++ zeros ((-leading).toNat - 1) ++ digits
  else
    let whole := leading.toNat + 1
    if digits.length ≤ whole then
      digits ++ zeros (whole - digits.length) ++ ".0".toList
    else digits.take whole ++ '.' :: digits.drop whole

/-- Digits with an exponent. -/
def scientific (digits : Text) (leading : Int) : Text :=
  let fraction :=
    match digits.drop 1 with
    | [] => []
    | rest => '.' :: rest
  let exponent :=
    if leading < 0 then '-' :: Text.ofNat (-leading).toNat else '+' :: Text.ofNat leading.toNat
  digits.take 1 ++ fraction ++ 'e' :: exponent

/-- The text of a magnitude. -/
def magnitudeText (x : Magnitude) : Text :=
  let d := Decimal.shortest x
  let digits := Text.ofNat d.digits
  let leading := d.leadingPower
  if x.mantissa = 0 then "0.0".toList
  else if doubleFormat.leastPositional ≤ leading && leading < doubleFormat.leastScientific then
    positional digits leading
  else scientific digits leading

/-- The text of a number. -/
def numberText : JsonNumber → Text
  | .natural n => Text.ofNat n
  | .negative n => '-' :: Text.ofNat n
  | .double x =>
    if x.negative then '-' :: magnitudeText x.magnitude else magnitudeText x.magnitude

mutual

/-- The text of a value, without any space. -/
def compact : Json → Text
  | .null => "null".toList
  | .bool true => "true".toList
  | .bool false => "false".toList
  | .number n => numberText n
  | .string t => quote t
  | .array items => '[' :: compactItems items ++ [']']
  | .object members => '\x7b' :: compactMembers members ++ ['\x7d']

/-- The texts of values, separated by commas. -/
def compactItems : List Json → Text
  | [] => []
  | [value] => compact value
  | value :: rest => compact value ++ ',' :: compactItems rest

/-- The texts of members, separated by commas. -/
def compactMembers : List (Text × Json) → Text
  | [] => []
  | [(name, value)] => quote name ++ ':' :: compact value
  | (name, value) :: rest => quote name ++ ':' :: compact value ++ ',' :: compactMembers rest

end

/-- A new line with so many levels of indentation. -/
def newLine (level : Nat) : Text :=
  '\n' :: List.replicate (2 * level) ' '

mutual

/-- The text of a value at a level of indentation. -/
def prettyAt (level : Nat) : Json → Text
  | .array (item :: items) =>
    '[' :: newLine (level + 1) ++ prettyAt (level + 1) item ++ prettyItems (level + 1) items ++
      newLine level ++ [']']
  | .object ((name, value) :: members) =>
    '\x7b' :: newLine (level + 1) ++ quote name ++ ": ".toList ++ prettyAt (level + 1) value ++
      prettyMembers (level + 1) members ++ newLine level ++ ['\x7d']
  | value => compact value

/-- The texts of further items, each on a line of its own. -/
def prettyItems (level : Nat) : List Json → Text
  | [] => []
  | item :: items => ',' :: newLine level ++ prettyAt level item ++ prettyItems level items

/-- The texts of further members, each on a line of its own. -/
def prettyMembers (level : Nat) : List (Text × Json) → Text
  | [] => []
  | (name, value) :: members =>
    ',' :: newLine level ++ quote name ++ ": ".toList ++ prettyAt level value ++
      prettyMembers level members

end

/-- The text of a value over several lines. -/
def pretty (value : Json) : Text :=
  prettyAt 0 value

end Json

end StyleBundle

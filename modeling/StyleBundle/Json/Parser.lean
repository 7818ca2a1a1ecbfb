import StyleBundle.Json.Basic
import StyleBundle.Text.Digit

/-!
# Reading JSON

`Json.parse?` accepts strict JSON.  Values nest less than 128 deep.  Names and texts may not hold
lone surrogates, and a number must not be too large for a double.

A number with a fraction, an exponent or more digits than 64 bits hold is a double.  Its digits
beyond 64 bits count for its size only.

Every reader takes the text that is left and gives back what it read with the rest.
-/

namespace StyleBundle

namespace Json

/-- The text without leading white space. -/
def skipSpace (t : Text) : Text :=
  t.dropWhile fun c => c == ' ' || c == '\n' || c == '\t' || c == '\r'

/-! ## Texts -/

/-- The value of four hexadecimal digits. -/
def hexFour? (a b c d : Char) : Option Nat := do
  return (((← Digit.hex? a) * 16 + (← Digit.hex? b)) * 16 + (← Digit.hex? c)) * 16 +
    (← Digit.hex? d)

/-- The character of a simple escape. -/
def escaped? : Char → Option Char
  | '"' => some '"'
  | '\\' => some '\\'
  | '/' => some '/'
  | 'b' => some '\x08'
  | 'f' => some '\x0c'
  | 'n' => some '\n'
  | 'r' => some '\r'
  | 't' => some '\t'
  | _ => none

/-- Whether the number is the first half of a surrogate pair. -/
def isHighSurrogate (n : Nat) : Bool :=
  0xD800 ≤ n && n ≤ 0xDBFF

/-- Whether the number is the second half of a surrogate pair. -/
def isLowSurrogate (n : Nat) : Bool :=
  0xDC00 ≤ n && n ≤ 0xDFFF

/-- Reads one character of a text, with the number of characters that it is written with after the
first. -/
def character? : Text → Option (Char × Nat)
  | '\\' :: 'u' :: a :: b :: c :: d :: rest => do
    let high ← hexFour? a b c d
    if isLowSurrogate high then none
    else if isHighSurrogate high then
      match rest with
      | '\\' :: 'u' :: e :: f :: g :: h :: _ =>
        let low ← hexFour? e f g h
        if isLowSurrogate low then
          return (Char.ofNat (0x10000 + (high - 0xD800) * 0x400 + (low - 0xDC00)), 11)
        else none
      | _ => none
    else return (Char.ofNat high, 5)
  | '\\' :: c :: _ => do
    return (← escaped? c, 1)
  | c :: _ => if c.toNat < 0x20 then none else some (c, 0)
  | [] => none

/-- Reads the rest of a text up to its closing quote.  The first `skip` characters belong to an
earlier escape. -/
def textFrom (skip : Nat) : Text → Option (Text × Text)
  | [] => none
  | c :: rest =>
    match skip with
    | skip + 1 => textFrom skip rest
    | 0 =>
      if c = '"' then some ([], rest)
      else do
        let (read, more) ← character? (c :: rest)
        let (tail, rest) ← textFrom more rest
        return (read :: tail, rest)

/-! ## Numbers -/

/-- The least number that 64 bits do not hold. -/
def wordSize : Nat := Nat.pow 2 64

/-- The greatest exponent that is read exactly. -/
def exponentLimit : Nat := 2147483647

/-- Reads digits into a significand as long as it stays below the word size.  Gives the
significand, the number of digits read and the rest. -/
def significandFrom (significand count : Nat) : Text → Nat × Nat × Text
  | [] => (significand, count, [])
  | c :: rest =>
    match Digit.decimal? c with
    | some d =>
      if significand * 10 + d < wordSize then
        significandFrom (significand * 10 + d) (count + 1) rest
      else (significand, count, c :: rest)
    | none => (significand, count, c :: rest)

/-- Reads the digits of an exponent.  Nothing stands for an exponent over the limit. -/
def exponentFrom (sofar : Nat) : Text → Option Nat × Text
  | [] => (some sofar, [])
  | c :: rest =>
    match Digit.decimal? c with
    | some d =>
      if sofar * 10 + d ≤ exponentLimit then exponentFrom (sofar * 10 + d) rest
      else (none, rest.dropWhile Digit.isDecimal)
    | none => (some sofar, c :: rest)

/-- The number with the given sign, significand and power of ten. -/
def double? (negative : Bool) (significand : Nat) (power : Int) : Option JsonNumber :=
  (Magnitude.ofParts? significand power).map fun x => .double ⟨negative, x⟩

/-- Reads the exponent of a number, if there is one. -/
def exponent? (negative : Bool) (significand : Nat) (power : Int) (t : Text) :
    Option (JsonNumber × Text) :=
  match t with
  | c :: rest =>
    if c = 'e' ∨ c = 'E' then
      let (down, rest) :=
        match rest with
        | '+' :: rest => (false, rest)
        | '-' :: rest => (true, rest)
        | rest => (false, rest)
      if (rest.head?.map Digit.isDecimal).getD false then
        match exponentFrom 0 rest with
        | (some n, rest) =>
          let power := if down then power - n else power + n
          (double? negative significand power).map (·, rest)
        | (none, rest) =>
          if significand = 0 ∨ down then some (.double ⟨negative, .zero⟩, rest) else none
      else none
    else (double? negative significand power).map (·, t)
  | [] => (double? negative significand power).map (·, [])

/-- Reads the fraction and the exponent of a number whose integer part was read. -/
def fraction? (negative : Bool) (significand : Nat) (power : Int) (t : Text) :
    Option (JsonNumber × Text) :=
  match t with
  | '.' :: rest =>
    if (rest.head?.map Digit.isDecimal).getD false then
      let (significand, count, rest) := significandFrom significand 0 rest
      exponent? negative significand (power - count) (rest.dropWhile Digit.isDecimal)
    else none
  | _ => exponent? negative significand power t

/-- The integer with the given sign and significand. -/
def integer (negative : Bool) (significand : Nat) : JsonNumber :=
  if !negative then .natural significand
  else if significand = 0 ∨ Nat.pow 2 63 < significand then
    .double ⟨true, (Magnitude.ofParts? significand 0).getD .zero⟩
  else .negative significand

/-- Whether a fraction or an exponent follows. -/
def goesOn : Text → Bool
  | '.' :: _ => true
  | 'e' :: _ => true
  | 'E' :: _ => true
  | _ => false

/-- Reads a number without its sign. -/
def unsigned? (negative : Bool) (t : Text) : Option (JsonNumber × Text) :=
  match t with
  | '0' :: rest =>
    if (rest.head?.map Digit.isDecimal).getD false then none
    else if goesOn rest then fraction? negative 0 0 rest
    else some (integer negative 0, rest)
  | c :: _ =>
    if Digit.isDecimal c then
      let (significand, _, rest) := significandFrom 0 0 t
      let more := rest.takeWhile Digit.isDecimal
      let rest := rest.dropWhile Digit.isDecimal
      if more ≠ [] ∨ goesOn rest then fraction? negative significand more.length rest
      else some (integer negative significand, rest)
    else none
  | [] => none

/-- Reads a number. -/
def number? : Text → Option (JsonNumber × Text)
  | '-' :: rest => unsigned? true rest
  | t => unsigned? false t

/-! ## Values -/

/-- Reads values separated by commas up to a closing bracket, at most `steps` of them. -/
def items (item : Text → Option (Json × Text)) : (steps : Nat) → Text → Option (List Json × Text)
  | 0, _ => none
  | steps + 1, t => do
    let (first, rest) ← item t
    match skipSpace rest with
    | ',' :: rest =>
      let (more, rest) ← items item steps rest
      return (first :: more, rest)
    | ']' :: rest => return ([first], rest)
    | _ => none

/-- Reads a name and its value. -/
def member? (item : Text → Option (Json × Text)) (t : Text) : Option ((Text × Json) × Text) :=
  match skipSpace t with
  | '"' :: rest => do
    let (name, rest) ← textFrom 0 rest
    match skipSpace rest with
    | ':' :: rest =>
      let (value, rest) ← item rest
      return ((name, value), rest)
    | _ => none
  | _ => none

/-- Reads members separated by commas up to a closing brace, at most `steps` of them. -/
def pairs (item : Text → Option (Json × Text)) :
    (steps : Nat) → Text → Option (List (Text × Json) × Text)
  | 0, _ => none
  | steps + 1, t => do
    let (first, rest) ← member? item t
    match skipSpace rest with
    | ',' :: rest =>
      let (more, rest) ← pairs item steps rest
      return (first :: more, rest)
    | '\x7d' :: rest => return ([first], rest)
    | _ => none

/-- Reads the items of an array after its opening bracket. -/
def arrayBody (item : Text → Option (Json × Text)) (t : Text) : Option (Json × Text) :=
  match skipSpace t with
  | ']' :: rest => some (.array [], rest)
  | rest => (items item rest.length rest).map fun (values, rest) => (.array values, rest)

/-- Reads the members of an object after its opening brace. -/
def objectBody (item : Text → Option (Json × Text)) (t : Text) : Option (Json × Text) :=
  match skipSpace t with
  | '\x7d' :: rest => some (.object [], rest)
  | rest => (pairs item rest.length rest).map fun (values, rest) => (ofPairs values, rest)

/-- Reads a word and gives the value that it stands for. -/
def word? (word : Text) (value : Json) (t : Text) : Option (Json × Text) :=
  (Text.after? word t).map fun rest => (value, rest)

/-- Reads a value with at most `depth` levels of nesting. -/
def value? : (depth : Nat) → Text → Option (Json × Text)
  | depth, t =>
    match skipSpace t with
    | 'n' :: rest => word? "ull".toList .null rest
    | 't' :: rest => word? "rue".toList (.bool true) rest
    | 'f' :: rest => word? "alse".toList (.bool false) rest
    | '"' :: rest => (textFrom 0 rest).map fun (value, rest) => (.string value, rest)
    | '[' :: rest =>
      match depth with
      | 0 => none
      | depth + 1 => arrayBody (value? depth) rest
    | '\x7b' :: rest =>
      match depth with
      | 0 => none
      | depth + 1 => objectBody (value? depth) rest
    | rest => (number? rest).map fun (value, rest) => (.number value, rest)

/-- The levels of nesting that are read. -/
def depthLimit : Nat := 127

/-- Reads a text that holds one value. -/
def parse? (t : Text) : Option Json := do
  let (value, rest) ← value? depthLimit t
  if skipSpace rest = [] then return value else none

end Json

end StyleBundle

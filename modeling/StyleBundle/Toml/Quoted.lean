import StyleBundle.Text.Digit
import StyleBundle.Text.Whitespace
import StyleBundle.Toml.Basic

/-!
# Texts of TOML

The four ways to write a text: between double quotes with escapes, between single quotes as it
is, and both again between three quotes over several lines.

In a text of several lines a newline right after the opening quotes is dropped, a backslash at the
end of a line drops all white space up to the next character, and the text may end in one or two
quotes of its own.
-/

namespace StyleBundle

namespace Toml

/-- The character with a code point, if there is one. -/
def scalar? (n : Nat) : Option Char :=
  if n.isValidChar then some (Char.ofNat n) else none

/-- Reads `count` hexadecimal digits that write a code point. -/
def codePoint? (count : Nat) (t : Text) : Option Char :=
  let digits := t.take count
  if digits.length = count ∧
    digits.all Digit.isHex then scalar? (Digit.number 16 digits) else none

/-- Reads what follows a backslash: a character, with the number of characters that follow the
first one. -/
def escape? : Text → Option (Char × Nat)
  | 'b' :: _ => some ('\x08', 0)
  | 't' :: _ => some ('\t', 0)
  | 'n' :: _ => some ('\n', 0)
  | 'f' :: _ => some ('\x0c', 0)
  | 'r' :: _ => some ('\r', 0)
  | 'e' :: _ => some ('\x1b', 0)
  | '"' :: _ => some ('"', 0)
  | '\\' :: _ => some ('\\', 0)
  | 'x' :: rest => (codePoint? 2 rest).map fun c => (c, 2)
  | 'u' :: rest => (codePoint? 4 rest).map fun c => (c, 4)
  | 'U' :: rest => (codePoint? 8 rest).map fun c => (c, 8)
  | _ => none

/-- Reads a text on one line up to its closing double quote.  The first `skip` characters belong
to an earlier escape. -/
def basicFrom (skip : Nat) : Reader Text
  | [] => none
  | c :: rest =>
    match skip with
    | skip + 1 => basicFrom skip rest
    | 0 =>
      if c = '"' then some ([], rest)
      else if c = '\\' then do
        let (read, more) ← escape? rest
        let (tail, rest) ← basicFrom (more + 1) rest
        return (read :: tail, rest)
      else if isControl c then none
      else do
        let (tail, rest) ← basicFrom 0 rest
        return (c :: tail, rest)

/-- Reads a text on one line up to its closing single quote. -/
def literalFrom : Reader Text
  | [] => none
  | c :: rest =>
    if c = '\'' then some ([], rest)
    else if isControl c then none
    else do
      let (tail, rest) ← literalFrom rest
      return (c :: tail, rest)

/-- Drops a newline at the start. -/
def dropNewline : Text → Text
  | '\n' :: rest => rest
  | '\r' :: '\n' :: rest => rest
  | t => t

/-- How many quotes stand at the start, up to five. -/
def quoteRun (quote : Char) (t : Text) : Nat :=
  ((t.take 5).takeWhile (· == quote)).length

/-- Whether a backslash in front of this text ends a line: only blanks come before the newline. -/
def endsLine (t : Text) : Bool :=
  match t.dropWhile isBlank with
  | '\n' :: _ => true
  | '\r' :: '\n' :: _ => true
  | _ => false

/-- The number of characters of white space at the start. -/
def spaceRun (t : Text) : Nat :=
  (t.takeWhile fun c => c == ' ' || c == '\t' || c == '\n' || c == '\r').length

/-- Reads a text of several lines up to its closing quotes.  The first `skip` characters belong to
something read before. -/
def linesFrom (quote : Char) (escapes : Bool) (skip : Nat) : Reader Text
  | [] => none
  | c :: rest =>
    match skip with
    | skip + 1 => linesFrom quote escapes skip rest
    | 0 =>
      if c = quote then
        let run := quoteRun quote (c :: rest)
        if 3 ≤ run then some (List.replicate (run - 3) quote, (c :: rest).drop run)
        else do
          let (tail, rest) ← linesFrom quote escapes 0 rest
          return (c :: tail, rest)
      else if c = '\\' ∧ escapes then
        if endsLine rest then linesFrom quote escapes (spaceRun rest) rest
        else do
          let (read, more) ← escape? rest
          let (tail, rest) ← linesFrom quote escapes (more + 1) rest
          return (read :: tail, rest)
      else if c = '\r' then
        if rest.head? = some '\n' then linesFrom quote escapes 0 rest else none
      else if isControl c ∧ c ≠ '\n' then none
      else do
        let (tail, rest) ← linesFrom quote escapes 0 rest
        return (c :: tail, rest)

/-- Reads a text on one line, as it may stand for a key. -/
def quotedLine? : Reader Text
  | '"' :: rest => basicFrom 0 rest
  | '\'' :: rest => literalFrom rest
  | _ => none

/-- Reads a text in any of the four ways. -/
def quoted? : Reader Text
  | '"' :: '"' :: '"' :: rest => linesFrom '"' true 0 (dropNewline rest)
  | '\'' :: '\'' :: '\'' :: rest => linesFrom '\'' false 0 (dropNewline rest)
  | t => quotedLine? t

end Toml

end StyleBundle

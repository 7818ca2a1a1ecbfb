/-!
# Text

A text is a list of characters.  Contents of stylesheets, path texts, patterns and
messages are all texts, so every rule of the library is a rule on lists.

The module holds the cuts and joins that the rules share:

* cutting at a separator (`Text.split`, `Text.cutFirst?`, `Text.cutLast?`, `Text.lines`);
* putting pieces together (`Text.joinWith`);
* searching and replacing (`Text.occurs`, `Text.slashed`);
* the length in bytes of the UTF-8 form (`Text.byteLength`).
-/

namespace StyleBundle

/-- A text, character by character. -/
abbrev Text := List Char

namespace Text

/-- The number of bytes of the UTF-8 form. -/
def byteLength : Text → Nat
  | [] => 0
  | c :: rest => c.utf8Size + byteLength rest

/-- The pieces between the separators, empty pieces included.  There is always at least
one piece. -/
def split (separator : Char) : Text → List Text
  | [] => [[]]
  | c :: rest =>
    match split separator rest with
    | [] => [[]]
    | piece :: pieces =>
      if c = separator then [] :: piece :: pieces else (c :: piece) :: pieces

/-- The pieces with the separator text between neighbours. -/
def joinWith (separator : Text) : List Text → Text
  | [] => []
  | [piece] => piece
  | piece :: pieces => piece ++ separator ++ joinWith separator pieces

/-- The texts before and after the first occurrence of the character. -/
def cutFirst? (mark : Char) : Text → Option (Text × Text)
  | [] => none
  | c :: rest =>
    if c = mark then some ([], rest)
    else (cutFirst? mark rest).map fun (before, after) => (c :: before, after)

/-- The texts before and after the last occurrence of the character. -/
def cutLast? (mark : Char) : Text → Option (Text × Text)
  | [] => none
  | c :: rest =>
    match cutLast? mark rest with
    | some (before, after) => some (c :: before, after)
    | none => if c = mark then some ([], rest) else none

/-- The text with every backslash turned into a slash. -/
def slashed (t : Text) : Text :=
  t.map fun c => if c = '\\' then '/' else c

/-- The rest of `t` after `head`, when `t` starts with `head`. -/
def after? : (head t : Text) → Option Text
  | [], t => some t
  | _ :: _, [] => none
  | a :: head, c :: t => if a = c then after? head t else none

/-- Whether the text starts with `head`. -/
def startsWith (t head : Text) : Bool :=
  (after? head t).isSome

/-- Whether the text ends with `tail`. -/
def endsWith (t tail : Text) : Bool :=
  startsWith t.reverse tail.reverse

/-- Whether `part` stands somewhere in the text. -/
def occurs (part : Text) : Text → Bool
  | [] => part.isEmpty
  | c :: rest => startsWith (c :: rest) part || occurs part rest

/-- A line without the carriage return that ends it. -/
def dropReturn (line : Text) : Text :=
  if line.getLast? = some '\r' then line.dropLast else line

/-- Lines from pieces cut at newlines.  A carriage return is dropped only in front of a
newline, and an empty last piece is no line. -/
def linesOfPieces : List Text → List Text
  | [] => []
  | [last] => if last = [] then [] else [last]
  | piece :: pieces => dropReturn piece :: linesOfPieces pieces

/-- The lines of a text.  A line ends at a newline; a carriage return in front of that
newline belongs to the line end. -/
def lines (t : Text) : List Text :=
  linesOfPieces (t.split '\n')

/-- Whether the first text comes before the second or equals it, by code points. -/
def le : Text → Text → Bool
  | [], _ => true
  | _ :: _, [] => false
  | a :: s, b :: t => a.val < b.val || (a == b && le s t)

/-- The text of a number in base ten. -/
def ofNat (n : Nat) : Text :=
  Nat.toDigits 10 n

end Text

/-- The list with every element removed that repeats an earlier one, elements being
compared by `same`. -/
def firstOccurrences {α : Type} (same : α → α → Bool) (items : List α) : List α :=
  (items.foldl (fun kept item => if kept.any (same item) then kept else item :: kept) []).reverse

end StyleBundle

import StyleBundle.Compile.Error
import StyleBundle.Text.Alphanumeric
import StyleBundle.Text.Digit
import StyleBundle.Text.Whitespace

/-!
# Reports of the compiler

The compiler reports an error like this:

    Error: Undefined variable.
      ╷
    3 │   color: $nope;
      │          ^^^^^
      ╵
      input.scss 3:10  root stylesheet

`Report.diagnose` reads the message, the excerpt between the two rulers and the place of the error
from such a report.  The place is the first line of the trace, which follows the excerpt.
-/

namespace StyleBundle

namespace Report

/-- The mark of the line above an excerpt. -/
def openingRuler : Char := '╷'

/-- The mark of the line below an excerpt. -/
def closingRuler : Char := '╵'

/-- Whether the first character of a line, white space apart, is the mark. -/
def isRuler (mark : Char) (line : Text) : Bool :=
  line.trimStart.head? == some mark

/-- The message: the first line that starts with `Error: `, else everything. -/
def message (report : Text) : Text :=
  (report.lines.findSome? (Text.after? "Error: ".toList)).getD report.trim

/-- The lines after the opening ruler. -/
def afterOpening (lines : List Text) : List Text :=
  (lines.dropWhile fun line => !isRuler openingRuler line).drop 1

/-- The lines of the excerpt. -/
def excerptLines (lines : List Text) : List Text :=
  (afterOpening lines).takeWhile fun line => !isRuler closingRuler line

/-- The lines after the closing ruler. -/
def afterClosing (lines : List Text) : List Text :=
  ((afterOpening lines).dropWhile fun line => !isRuler closingRuler line).drop 1

/-- The excerpt, if it has a line. -/
def excerpt (report : Text) : Option Text :=
  match excerptLines report.lines with
  | [] => none
  | lines => some (Text.joinWith ['\n'] lines)

/-- The text in which the place is looked for: what follows the excerpt, or everything. -/
def trace (report : Text) : Text :=
  match excerptLines report.lines with
  | [] => report
  | _ => Text.joinWith ['\n'] (afterClosing report.lines)

/-- A place as it is written in a trace. -/
structure Frame where
  /-- The file. -/
  file : Text
  /-- The digits of the line. -/
  line : Text
  /-- The digits of the column. -/
  column : Text
deriving DecidableEq

/-- A run of characters of a class, which is not empty, and the rest. -/
def run? (isIn : Char → Bool) (t : Text) : Option (Text × Text) :=
  match t.span isIn with
  | ([], _) => none
  | (run, rest) => some (run, rest)

/-- Reads a place at the start of a line: white space, the file, a space, the line, a colon, the
column, at least two characters of white space and something after them. -/
def frame? (t : Text) : Option Frame := do
  let (_, t) ← run? isWhitespace t
  let (file, t) ← run? (fun c => !isWhitespace c) t
  let t ← Text.after? [' '] t
  let (line, t) ← run? isDecimalDigit t
  let t ← Text.after? [':'] t
  let (column, t) ← run? isDecimalDigit t
  let (space, t) ← run? isWhitespace t
  if 2 ≤ space.length ∧ t ≠ [] then some ⟨file, line, column⟩ else none

/-- The first place in a text.  `atStart` tells whether the text starts a line. -/
def firstFrame? (atStart : Bool) : Text → Option Frame
  | [] => none
  | c :: rest =>
    match if atStart then frame? (c :: rest) else none with
    | some frame => some frame
    | none => firstFrame? (c == '\n') rest

/-- The number that digits write.  It is 0 when a digit is not an ASCII digit or the number has
more than 64 bits. -/
def number (digits : Text) : Nat :=
  let n := Digit.number 10 digits
  if digits.all Digit.isDecimal ∧ n < Nat.pow 2 64 then n else 0

/-- The diagnostic of a report.  The compiler's input stands for the logical file. -/
def diagnose (report : Text) (input logical : Path) : Diagnostic :=
  let whole := { message := message report, file := logical, line := 0, column := 0,
                 excerpt := excerpt report }
  match firstFrame? true (trace report) with
  | none => whole
  | some frame =>
    let isInput := some frame.file = input.fileName? || (⟨frame.file⟩ : Path).same input
    { whole with
      file := if isInput then logical else ⟨frame.file⟩
      line := number frame.line
      column := number frame.column }

end Report

end StyleBundle

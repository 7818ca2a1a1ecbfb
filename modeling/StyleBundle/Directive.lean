import StyleBundle.Text.Whitespace

/-!
# Directives

A directive is a comment that asks for other stylesheets in its place:

    //= require 'path'
    /* = require_tree "./dir" */
    #= require 'path'

Blanks may stand around the `=`.  The target stands between two equal quotes.  A `*/` after the
target, on the same line, belongs to the directive when the comment was opened by `/*`.

* `Directive.occurrence?` reads a directive at the start of a text.
* `Directive.parse` finds all directives of a text from left to right.
-/

namespace StyleBundle

namespace Directive

/-- What a directive asks for. -/
inductive Kind where
  /-- One file. -/
  | require
  /-- Every stylesheet of a directory. -/
  | requireTree
deriving DecidableEq

/-- The start of a directive comment. -/
inductive Opener where
  /-- Two slashes. -/
  | line
  /-- A slash and a star. -/
  | block
  /-- A hash sign. -/
  | hash
deriving DecidableEq

/-- A directive read at the start of a text. -/
structure Occurrence where
  /-- What is asked for. -/
  kind : Kind
  /-- The text between the quotes. -/
  target : Text
  /-- The text that the directive covers. -/
  raw : Text
  /-- The number of characters read, a `*/` after the target included. -/
  consumed : Nat
deriving DecidableEq

/-- Reads an opener. -/
def opener? : Text → Option (Opener × Text)
  | '/' :: '/' :: rest => some (.line, rest)
  | '/' :: '*' :: rest => some (.block, rest)
  | '#' :: rest => some (.hash, rest)
  | _ => none

/-- The text without leading blanks. -/
def skipBlanks (t : Text) : Text :=
  t.dropWhile isBlank

/-- Reads one blank or more. -/
def blanks? : Text → Option Text
  | [] => none
  | c :: rest => if isBlank c then some (skipBlanks rest) else none

/-- Reads a keyword, the longer one first. -/
def keyword? (t : Text) : Option (Kind × Text) :=
  match Text.after? "require_tree".toList t with
  | some rest => some (.requireTree, rest)
  | none => (Text.after? "require".toList t).map fun rest => (.require, rest)

/-- Reads a target between two equal quotes.  It is not empty and holds neither a newline nor
its own quote. -/
def quoted? : Text → Option (Text × Text)
  | [] => none
  | quote :: rest =>
    if quote = '\'' ∨ quote = '"' then
      let inside := fun c : Char => c != quote && c != '\n'
      match rest.takeWhile inside, rest.dropWhile inside with
      | [], _ => none
      | target, c :: rest => if c = quote then some (target, rest) else none
      | _, [] => none
    else none

/-- Reads blanks and `*/`. -/
def closer? (t : Text) : Option Text :=
  Text.after? ['*', '/'] (skipBlanks t)

/-- Reads a directive at the start of the text. -/
def occurrence? (t : Text) : Option Occurrence := do
  let (opener, rest) ← opener? t
  let rest ← Text.after? ['='] (skipBlanks rest)
  let (kind, rest) ← keyword? (skipBlanks rest)
  let rest ← blanks? rest
  let (target, rest) ← quoted? rest
  let closed := (closer? rest).getD rest
  let covered := if opener = .block then closed else rest
  return {
    kind := kind
    target := target
    raw := t.take (t.length - covered.length)
    consumed := t.length - closed.length
  }

end Directive

/-- A directive found in a text. -/
structure Directive where
  /-- What is asked for. -/
  kind : Directive.Kind
  /-- The text between the quotes. -/
  target : Text
  /-- The text that the directive covers. -/
  raw : Text
  /-- The byte offset of the covered text. -/
  start : Nat
deriving DecidableEq

namespace Directive

/-- The byte offset after the covered text. -/
def stop (d : Directive) : Nat :=
  d.start + d.raw.byteLength

/-- The directive that an occurrence at a byte offset stands for. -/
def Occurrence.at (o : Occurrence) (offset : Nat) : Directive :=
  { kind := o.kind, target := o.target, raw := o.raw, start := offset }

/-- Finds the directives of the rest of a text that starts at `offset`.  The first `skip`
characters belong to a directive that was found before. -/
def scan (skip offset : Nat) : Text → List Directive
  | [] => []
  | c :: rest =>
    match skip with
    | skip + 1 => scan skip (offset + c.utf8Size) rest
    | 0 =>
      match occurrence? (c :: rest) with
      | some found => found.at offset :: scan (found.consumed - 1) (offset + c.utf8Size) rest
      | none => scan 0 (offset + c.utf8Size) rest

/-- All directives of a text, in the order of the text. -/
def parse (t : Text) : List Directive :=
  scan 0 0 t

end Directive

end StyleBundle

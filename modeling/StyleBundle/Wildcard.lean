import StyleBundle.Text.Basic

/-!
# Wildcards

Patterns of file mappings.  `**` stands for any run of characters on one line, `*` for any run
without a slash, `?` for one character other than a slash.  Everything else stands for itself, and
backslashes count as slashes in the pattern and in the text.

A pattern is a list of tokens.  Matching walks the tokens from the last to the first and keeps,
for every suffix of the text, whether the tokens so far match it (`Wildcard.marks`), so its cost
is the product of the two lengths.

A pattern that is too large is refused (`Wildcard.compile?`).  How large a pattern is can only be
estimated (`Wildcard.Token.weight`).
-/

namespace StyleBundle

namespace Wildcard

/-- One unit of a pattern. -/
inductive Token where
  /-- The character itself. -/
  | literal (c : Char)
  /-- One character other than a slash. -/
  | one
  /-- Any run of characters other than slashes. -/
  | run
  /-- Any run of characters other than newlines. -/
  | deepRun
deriving DecidableEq

/-- Reads a pattern.  Two stars are taken together before one. -/
def tokens : Text → List Token
  | [] => []
  | '*' :: '*' :: rest => .deepRun :: tokens rest
  | '*' :: rest => .run :: tokens rest
  | '?' :: rest => .one :: tokens rest
  | c :: rest => .literal c :: tokens rest

/-- The marks of a token that takes one character, from the marks of what follows it. -/
def markOne (takes : Char → Bool) : Text → List Bool → List Bool
  | c :: text, _ :: marks => (takes c && marks.headD false) :: markOne takes text marks
  | _, _ => [false]

/-- The marks of a token that takes any run of characters, from the marks of what follows it. -/
def markRun (takes : Char → Bool) : Text → List Bool → List Bool
  | c :: text, mark :: marks =>
    let later := markRun takes text marks
    (mark || (takes c && later.headD false)) :: later
  | _, marks => marks

/-- The marks when no token is left: only the empty suffix matches. -/
def markEnd (text : Text) : List Bool :=
  text.map (fun _ => false) ++ [true]

/-- The marks of one token, from the marks of the tokens after it. -/
def Token.mark (text : Text) : Token → List Bool → List Bool
  | literal c => markOne (· == c) text
  | one => markOne (· != '/') text
  | run => markRun (· != '/') text
  | deepRun => markRun (· != '\n') text

/-- Whether the tokens match each suffix of the text, longest suffix first. -/
def marks (text : Text) (pattern : List Token) : List Bool :=
  pattern.foldr (Token.mark text) (markEnd text)

/-- An estimate of the bytes that a token takes in the tables of a compiled matcher.  A matcher
may weigh tokens otherwise, so near the limit it may accept other patterns.  The estimate tells
patterns with some hundreds of wildcards from patterns with tens of thousands of them. -/
def Token.weight : Token → Nat
  | literal c => 32 * c.utf8Size
  | _ => 512

/-- The most bytes that a pattern may take. -/
def sizeLimit : Nat := 10485760

end Wildcard

/-- A pattern that was accepted. -/
structure Wildcard where
  /-- The pattern as written. -/
  source : Text
deriving DecidableEq

namespace Wildcard

/-- The units of the pattern. -/
def units (w : Wildcard) : List Token :=
  tokens w.source.slashed

/-- The estimate for a list of tokens. -/
def weigh (pattern : List Token) : Nat :=
  pattern.foldl (fun total token => total + token.weight) 0

/-- Accepts a pattern that is not too large. -/
def compile? (source : Text) : Option Wildcard :=
  if weigh (tokens source.slashed) ≤ sizeLimit then some ⟨source⟩ else none

/-- Whether the pattern matches the whole text. -/
def accepts (w : Wildcard) (text : Text) : Bool :=
  (marks text.slashed w.units).headD false

end Wildcard

end StyleBundle

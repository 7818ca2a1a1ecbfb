import StyleBundle.Text.Basic

/-!
# Glob patterns

Patterns for relative paths:

* `?` is one character, `*` any run of characters;
* `[abc]` and `[a-z]` are one character of a class, `[!abc]` one character outside of it;
* `**` as a whole component is any number of components.

None of them takes a slash, except `**`, nor a dot at the start of a component.
-/

namespace StyleBundle

namespace Glob

/-- A part of a character class. -/
inductive Specifier where
  /-- One character. -/
  | single (c : Char)
  /-- All characters from the first to the last. -/
  | range (first last : Char)
deriving DecidableEq

/-- Whether a character belongs to a part of a class. -/
def Specifier.accepts : Specifier → Char → Bool
  | single a, c => a == c
  | range first last, c => first ≤ c && c ≤ last

/-- One unit of a pattern. -/
inductive Token where
  /-- The character itself. -/
  | literal (c : Char)
  /-- One character. -/
  | any
  /-- Any run of characters of one component. -/
  | sequence
  /-- Any number of components. -/
  | recursive
  /-- One character of a class. -/
  | within (specifiers : List Specifier)
  /-- One character outside of a class. -/
  | except (specifiers : List Specifier)
deriving DecidableEq

/-- What is wrong with a pattern. -/
inductive PatternProblem where
  /-- Three stars or more stand together. -/
  | tooManyStars
  /-- Two stars are not a component of their own. -/
  | notWholeComponent
  /-- A class has no end. -/
  | invalidRange
deriving DecidableEq

/-- What is wrong with a pattern, and at which character. -/
structure PatternError where
  /-- The position. -/
  position : Nat
  /-- The problem. -/
  problem : PatternProblem
deriving DecidableEq

namespace PatternError

/-- The wording of a problem. -/
def description : PatternProblem → Text
  | .tooManyStars => "wildcards are either regular `*` or recursive `**`".toList
  | .notWholeComponent => "recursive wildcards must form a single path component".toList
  | .invalidRange => "invalid range pattern".toList

/-- The wording of an error. -/
def message (e : PatternError) : Text :=
  "Pattern syntax error near position ".toList ++ Text.ofNat e.position ++ ": ".toList ++
    description e.problem

end PatternError

/-! ## Reading -/

/-- The parts of a character class. -/
def specifiers : Text → List Specifier
  | first :: '-' :: last :: rest => .range first last :: specifiers rest
  | c :: rest => .single c :: specifiers rest
  | [] => []

/-- Adds a token for `**`.  Behind a token for `**` that is not the first token nothing is
added. -/
def pushRecursive (sofar : List Token) : List Token :=
  match sofar with
  | .recursive :: _ :: _ => sofar
  | _ => .recursive :: sofar

/-- Reads one star or two at a position.  Gives the tokens so far, the last one first, and the
number of characters after the first star that belong to them. -/
def stars (sofar : List Token) (previous : Option Char) (position : Nat) (rest : Text) :
    Except PatternError (List Token × Nat) :=
  match (rest.takeWhile (· == '*')).length with
  | 0 => .ok (.sequence :: sofar, 0)
  | 1 =>
    if previous = none ∨ previous = some '/' then
      match rest.drop 1 with
      | [] => .ok (pushRecursive sofar, 1)
      | '/' :: _ => .ok (pushRecursive sofar, 2)
      | _ => .error ⟨position + 2, .notWholeComponent⟩
    else .error ⟨position - 1, .notWholeComponent⟩
  | _ => .error ⟨position + 2, .tooManyStars⟩

/-- Reads a class after its opening bracket.  Gives its token and the number of characters read.
A closing bracket right at the start belongs to the class. -/
def charClass? : Text → Option (Token × Nat)
  | '!' :: first :: rest =>
    (Text.cutFirst? ']' rest).map fun (inside, _) =>
      (.except (specifiers (first :: inside)), inside.length + 3)
  | first :: rest =>
    if first = '!' then none
    else
      (Text.cutFirst? ']' rest).map fun (inside, _) =>
        (.within (specifiers (first :: inside)), inside.length + 2)
  | [] => none

/-- Reads the rest of a pattern, of which the first `skip` characters belong to an earlier
token. -/
def tokensFrom (sofar : List Token) (previous : Option Char) (position skip : Nat) :
    Text → Except PatternError (List Token)
  | [] => .ok sofar.reverse
  | c :: rest =>
    match skip with
    | skip + 1 => tokensFrom sofar (some c) (position + 1) skip rest
    | 0 =>
      if c = '?' then tokensFrom (.any :: sofar) (some c) (position + 1) 0 rest
      else if c = '*' then do
        let (sofar, more) ← stars sofar previous position rest
        tokensFrom sofar (some c) (position + 1) more rest
      else if c = '[' then
        match charClass? rest with
        | some (token, more) => tokensFrom (token :: sofar) (some c) (position + 1) more rest
        | none => .error ⟨position, .invalidRange⟩
      else tokensFrom (.literal c :: sofar) (some c) (position + 1) 0 rest

/-- Reads a pattern. -/
def tokens (pattern : Text) : Except PatternError (List Token) :=
  tokensFrom [] none 0 0 pattern

/-- The text with every character that means something in a pattern put into a class. -/
def escape (t : Text) : Text :=
  t.flatMap fun c =>
    if c = '?' ∨ c = '*' ∨ c = '[' ∨ c = ']' then ['[', c, ']'] else [c]

/-! ## Matching -/

/-- The characters of a text, each with whether it starts a component. -/
def marked (atStart : Bool) : Text → List (Bool × Char)
  | [] => []
  | c :: rest => (atStart, c) :: marked (c == '/') rest

/-- Whether a wildcard may take the character. -/
def visible : Bool × Char → Bool
  | (atStart, c) => c != '/' && !(atStart && c == '.')

/-- The marks of a token that takes one character, from the marks of what follows it. -/
def markOne (takes : Bool × Char → Bool) : List (Bool × Char) → List Bool → List Bool
  | c :: text, _ :: marks => (takes c && marks.headD false) :: markOne takes text marks
  | _, _ => [false]

/-- The marks of `*`, from the marks of what follows it. -/
def markSequence : List (Bool × Char) → List Bool → List Bool
  | c :: text, mark :: marks =>
    let later := markSequence text marks
    (mark || (visible c && later.headD false)) :: later
  | _, marks => marks

/-- Whether what follows `**` matches after some components, or after the whole text.  No
component that is passed over starts with a dot. -/
def markLater : List (Bool × Char) → List Bool → List Bool
  | (atStart, c) :: text, _ :: marks =>
    let later := markLater text marks
    let here :=
      if atStart && c == '.' then false
      else if c == '/' then marks.headD false || later.headD false
      else later.headD false
    here :: later
  | _, marks => marks

/-- The marks of `**`, from the marks of what follows it. -/
def markRecursive (text : List (Bool × Char)) (marks : List Bool) : List Bool :=
  List.zipWith (· || ·) marks (markLater text marks)

/-- The marks of one token, from the marks of the tokens after it. -/
def Token.mark (text : List (Bool × Char)) : Token → List Bool → List Bool
  | literal c => markOne (fun (_, d) => c == d) text
  | any => markOne visible text
  | sequence => markSequence text
  | recursive => markRecursive text
  | within specifiers =>
    markOne (fun c => visible c && specifiers.any (·.accepts c.2)) text
  | except specifiers =>
    markOne (fun c => visible c && !specifiers.any (·.accepts c.2)) text

/-- Whether the tokens match the whole text. -/
def accepts (pattern : List Token) (t : Text) : Bool :=
  let text := marked true t
  let atEnd := text.map (fun _ => false) ++ [true]
  (pattern.foldr (Token.mark text) atEnd).headD false

end Glob

end StyleBundle

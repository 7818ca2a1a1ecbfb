import StyleBundle.Text.Alphanumeric
import StyleBundle.Text.Basic

/-!
# Environment variables

Variables stand in a text as `$NAME`, as `${NAME}` or as `${NAME:-default}`.  A variable that is
set is replaced by its value, even if that is empty; the default takes the place of one that is
not.  Two dollar signs stand for one.  A dollar sign that starts none of these stands for itself.
Values are not looked at again.

A tilde at the start, alone or in front of a slash, stands for the home directory, unless it came
out of a variable.
-/

namespace StyleBundle

/-- The variables that are set, and what the system knows about the user. -/
structure Environment where
  /-- Names with values. -/
  bindings : List (Text × Text)
  /-- The home directory of the user's account. -/
  accountHome : Option Text

namespace Environment

/-- The value of a variable. -/
def get? (env : Environment) (name : Text) : Option Text :=
  (env.bindings.find? fun (other, _) => other == name).map Prod.snd

/-- Whether the character may stand in a name without braces. -/
def isNameChar (c : Char) : Bool :=
  isAlphanumeric c || c == '_'

/-- A text cut at its first `:-`. -/
def cutDefault? : Text → Option (Text × Text)
  | ':' :: '-' :: rest => some ([], rest)
  | c :: rest => (cutDefault? rest).map fun (before, after) => (c :: before, after)
  | [] => none

/-- The value of what stands between braces, or the name of the variable that is missing.  A `:-`
right after the brace belongs to the name. -/
def braced (env : Environment) (inside : Text) : Except Text Text :=
  match cutDefault? inside with
  | some (c :: name, default) => .ok ((env.get? (c :: name)).getD default)
  | _ =>
    match env.get? inside with
    | some value => .ok value
    | none => .error inside

/-- What a dollar sign in front of the text stands for, and how many characters of the text belong
to it, or the name of the variable that is missing. -/
def reference (env : Environment) (t : Text) : Except Text (Text × Nat) :=
  match t with
  | '$' :: _ => .ok (['$'], 1)
  | '\x7b' :: rest =>
    match Text.cutFirst? '\x7d' rest with
    | some (inside, _) => do
      let value ← env.braced inside
      return (value, inside.length + 2)
    | none => .ok ("$\x7b".toList, 1)
  | t =>
    match t.takeWhile isNameChar with
    | [] => .ok (['$'], 0)
    | name =>
      match env.get? name with
      | some value => .ok (value, name.length)
      | none => .error name

/-- Replaces the variables of a text, of which the first `skip` characters belong to a variable
that was replaced already. -/
def replaceFrom (env : Environment) (skip : Nat) : Text → Except Text Text
  | [] => .ok []
  | c :: rest =>
    match skip with
    | skip + 1 => env.replaceFrom skip rest
    | 0 =>
      if c = '$' then do
        let (value, more) ← env.reference rest
        let tail ← env.replaceFrom more rest
        return value ++ tail
      else do
        let tail ← env.replaceFrom 0 rest
        return c :: tail

/-- The home directory: the variable HOME, or that of the account when the variable is empty or
not set. -/
def home? (env : Environment) : Option Text :=
  ((env.get? "HOME".toList).filter (· ≠ [])).or env.accountHome

/-- Replaces a tilde at the start by the home directory. -/
def replaceTilde (env : Environment) (t : Text) : Text :=
  match t, env.home? with
  | ['~'], some home => home
  | '~' :: '/' :: rest, some home => home ++ '/' :: rest
  | t, _ => t

/-- Replaces variables and a leading tilde.  The error names a variable that is not set. -/
def expand (env : Environment) (t : Text) : Except Text Text := do
  let replaced ← env.replaceFrom 0 t
  return if t.head? = some '~' then env.replaceTilde replaced else replaced

end Environment

end StyleBundle

import StyleBundle.Text.Whitespace

/-!
# Package imports

`@import "~name/file"` names a file of a package, as `@use` and `@forward` do.  The tilde is
replaced by the directory of the packages.
-/

namespace StyleBundle

namespace PackageImport

/-- The words that import a file. -/
def keywords : List Text :=
  ["@import".toList, "@use".toList, "@forward".toList]

/-- Whether the character is a quote. -/
def isQuote (c : Char) : Bool :=
  c == '"' || c == '\''

/-- Reads a keyword, white space and an opening quote. -/
def opening? (t : Text) : Option (Text × Text) := do
  let (keyword, rest) ← keywords.findSome? fun word =>
    (Text.after? word t).map fun rest => (word, rest)
  let space := rest.takeWhile isWhitespace
  if space = [] then none
  match rest.dropWhile isWhitespace with
  | quote :: rest => if isQuote quote then some (keyword ++ space ++ [quote], rest) else none
  | [] => none

/-- Reads the import of a package file: what stands in front of the tilde, and the path after
it. -/
def package? (t : Text) : Option (Text × Text) := do
  let (head, rest) ← opening? t
  match rest with
  | '~' :: c :: rest =>
    if c = '/' ∨ isQuote c then none
    else some (head, c :: rest.takeWhile fun c => !isQuote c)
  | _ => none

/-- Replaces the tildes of package imports.  The first `skip` characters belong to an import that
was found before. -/
def replaceFrom (directory : Text) (skip : Nat) : Text → Text
  | [] => []
  | c :: rest =>
    match skip with
    | skip + 1 => replaceFrom directory skip rest
    | 0 =>
      match package? (c :: rest) with
      | some (head, path) =>
        head ++ directory ++ '/' :: path ++ replaceFrom directory (head.length + path.length) rest
      | none => c :: replaceFrom directory 0 rest

/-- The text with every package import pointing into the directory. -/
def replace (directory t : Text) : Text :=
  replaceFrom directory 0 t

end PackageImport

end StyleBundle

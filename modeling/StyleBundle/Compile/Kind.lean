import StyleBundle.Path.Basic

/-!
# Kinds of compilation

The backends, output styles and syntaxes, with the names that they go by.
-/

namespace StyleBundle

/-- What turns a stylesheet into CSS. -/
inductive Backend where
  /-- The Sass program. -/
  | sass
  /-- Nothing: the text is taken as it is. -/
  | passthrough
deriving DecidableEq

namespace Backend

/-- The name of a backend. -/
def name : Backend → Text
  | sass => "sass".toList
  | passthrough => "passthrough".toList

/-- The backend with a name. -/
def ofName? (t : Text) : Option Backend :=
  [sass, passthrough].find? fun backend => backend.name = t

end Backend

/-- How CSS is laid out. -/
inductive OutputStyle where
  /-- One declaration a line. -/
  | expanded
  /-- As short as possible. -/
  | compressed
deriving DecidableEq

namespace OutputStyle

/-- The name of a style. -/
def name : OutputStyle → Text
  | expanded => "expanded".toList
  | compressed => "compressed".toList

/-- All styles. -/
def all : List OutputStyle :=
  [expanded, compressed]

/-- The style with a name. -/
def ofName? (t : Text) : Option OutputStyle :=
  all.find? fun style => style.name = t

end OutputStyle

/-- How a stylesheet is written. -/
inductive Syntax where
  /-- With braces. -/
  | scss
  /-- With indentation. -/
  | indented
deriving DecidableEq

namespace Syntax

/-- The file extension of a syntax. -/
def extension : Syntax → Text
  | scss => "scss".toList
  | indented => "sass".toList

/-- The syntax of a file: indentation for the extension `sass` in any case of letters, else
braces. -/
def ofPath (p : Path) : Syntax :=
  match p.extension? with
  | some extension => if extension.map Char.toLower = "sass".toList then indented else scss
  | none => scss

end Syntax

end StyleBundle

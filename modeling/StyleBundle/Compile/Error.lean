import StyleBundle.Path.Basic
import StyleBundle.Source.Failure

/-!
# Errors of compilation

Why a stylesheet could not be compiled, and the diagnostic of a stylesheet that is wrong.
-/

namespace StyleBundle

/-- What is wrong with a stylesheet, and where. -/
structure Diagnostic where
  /-- What is wrong. -/
  message : Text
  /-- The file. -/
  file : Path
  /-- The line, from 1 on, or 0. -/
  line : Nat
  /-- The column, from 1 on, or 0. -/
  column : Nat
  /-- The lines around the place. -/
  excerpt : Option Text
deriving DecidableEq

namespace Diagnostic

/-- The diagnostic on one line. -/
def display (d : Diagnostic) : Text :=
  d.file.text ++ ':' :: Text.ofNat d.line ++ ':' :: Text.ofNat d.column ++
    ": ".toList ++ d.message

/-- The diagnostic with its excerpt. -/
def report (d : Diagnostic) : Text :=
  match d.excerpt with
  | some excerpt => d.display ++ '\n' :: excerpt
  | none => d.display

end Diagnostic

/-- Why a stylesheet could not be compiled. -/
inductive CompileError where
  /-- The stylesheet is wrong. -/
  | stylesheet (diagnostic : Diagnostic)
  /-- A global mixin is not there. -/
  | mixinNotFound (name : Text)
  /-- The compiler could not be started. -/
  | notStarted (binary : Text) (cause : IoFailure)
  /-- A file of the compilation could not be used. -/
  | io (cause : IoFailure)
  /-- The source map is no JSON. -/
  | invalidSourceMap
deriving DecidableEq

namespace CompileError

/-- The wording of an error. -/
def message : CompileError → Text
  | stylesheet diagnostic => "SCSS compilation error: ".toList ++ diagnostic.display
  | mixinNotFound name => "Global mixin file not found: ".toList ++ name
  | notStarted binary cause =>
    "Failed to run ".toList ++ binary ++ ": ".toList ++ cause.message
  | io cause => "I/O error: ".toList ++ cause.message
  | invalidSourceMap => "Invalid source map".toList

/-- The code of an error. -/
def code : CompileError → Text
  | stylesheet _ => "SPROCKETS_COMPILATION_ERROR".toList
  | mixinNotFound _ => "SPROCKETS_FILE_NOT_FOUND".toList
  | notStarted _ _ => "SPROCKETS_READ_ERROR".toList
  | io _ => "SPROCKETS_READ_ERROR".toList
  | invalidSourceMap => "SPROCKETS_COMPILATION_ERROR".toList

end CompileError

end StyleBundle

import StyleBundle.Path.Basic
import StyleBundle.Source.Failure

/-!
# Errors of expansion

The three reasons for which a stylesheet cannot be expanded.
-/

namespace StyleBundle

/-- Why a stylesheet could not be expanded. -/
inductive ResolveError where
  /-- The file is needed for its own expansion. -/
  | circular (path : Path)
  /-- No file answers to the import. -/
  | fileNotFound (target : Text)
  /-- A file could not be read. -/
  | unreadable (path : Path) (cause : IoFailure)
deriving DecidableEq

namespace ResolveError

/-- The wording of an error. -/
def message : ResolveError → Text
  | circular path => "Circular dependency detected: ".toList ++ path.text
  | fileNotFound target => "File not found: ".toList ++ target
  | unreadable path cause =>
    "Failed to read file: ".toList ++ path.text ++ ": ".toList ++ cause.message

/-- The code of an error. -/
def code : ResolveError → Text
  | circular _ => "SPROCKETS_CIRCULAR_DEPENDENCY".toList
  | fileNotFound _ => "SPROCKETS_FILE_NOT_FOUND".toList
  | unreadable _ _ => "SPROCKETS_READ_ERROR".toList

end ResolveError

end StyleBundle

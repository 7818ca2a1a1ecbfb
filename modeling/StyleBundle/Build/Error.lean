import StyleBundle.Compile.Error
import StyleBundle.Glob.Pattern
import StyleBundle.Resolve.Error
import StyleBundle.Resolve.Settings

/-!
# Errors of a build

Why a build, or one entry of it, failed.
-/

namespace StyleBundle

/-- Why a build or an entry failed. -/
inductive BuildError where
  /-- A stylesheet could not be expanded. -/
  | resolve (cause : ResolveError)
  /-- A stylesheet could not be compiled. -/
  | compile (cause : CompileError)
  /-- The resolution settings are refused. -/
  | settings (cause : SettingsError)
  /-- A glob pattern is wrong. -/
  | pattern (source : Text) (cause : Glob.PatternError)
  /-- A file or directory could not be written. -/
  | write (path : Path) (cause : IoFailure)
deriving DecidableEq

namespace BuildError

/-- The wording of an error. -/
def message : BuildError → Text
  | resolve cause => cause.message
  | compile cause => cause.message
  | settings cause => "Invalid resolution config: ".toList ++ cause.message
  | pattern source cause =>
    "Invalid glob pattern \"".toList ++ source ++ "\": ".toList ++ cause.message
  | write path cause =>
    "Failed to write file: ".toList ++ path.text ++ ": ".toList ++ cause.message

/-- The code of an error. -/
def code : BuildError → Text
  | resolve cause => cause.code
  | compile cause => cause.code
  | settings _ => "SPROCKETS_INVALID_CONFIG".toList
  | pattern _ _ => "SPROCKETS_INVALID_CONFIG".toList
  | write _ _ => "SPROCKETS_WRITE_ERROR".toList

end BuildError

/-- What a build makes one stylesheet of. -/
inductive Entry where
  /-- A file of its own, relative to the directory of the stylesheets. -/
  | single (path : Path)
  /-- A named group of files. -/
  | group (name : Text)
deriving DecidableEq

/-- The name of an entry in messages. -/
def Entry.display : Entry → Text
  | single path => path.text
  | group name => "group ".toList ++ name

/-- An entry that failed. -/
structure EntryFailure where
  /-- The entry. -/
  entry : Entry
  /-- Why it failed. -/
  error : BuildError
deriving DecidableEq

/-- The wording of a failure. -/
def EntryFailure.message (f : EntryFailure) : Text :=
  "Error processing ".toList ++ f.entry.display ++ ": ".toList ++ f.error.message

end StyleBundle

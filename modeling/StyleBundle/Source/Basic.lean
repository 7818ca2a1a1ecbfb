import StyleBundle.Path.Basic
import StyleBundle.Source.Failure

/-!
# Sources

A source answers questions about files and directories as they are at one moment.
-/

namespace StyleBundle

/-- A view of a tree of files. -/
structure Source where
  /-- The text of a file. -/
  read : Path → Except IoFailure Text
  /-- Whether a path names a file. -/
  isFile : Path → Bool
  /-- Whether a path names a directory. -/
  isDirectory : Path → Bool
  /-- The entries of a directory. -/
  list : Path → Except IoFailure (List Path)
  /-- No chain of readable files with different normal paths is longer than this. -/
  chainLimit : Nat

end StyleBundle

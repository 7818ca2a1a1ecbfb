import StyleBundle.Path.Basic

/-!
# Boundary markers

Two comments around the content of one file, so that a reader of the flattened text can tell
where each part comes from.
-/

namespace StyleBundle

/-- The pair of comments around the content of a file. -/
structure Boundary where
  /-- The path that both comments name. -/
  path : Text
deriving DecidableEq

namespace Boundary

/-- The marker of a file. -/
def ofPath (p : Path) : Boundary :=
  ⟨p.display⟩

/-- A marker comment between two newlines. -/
def comment (b : Boundary) (side : Text) : Text :=
  "\n/* FILE_BOUNDARY: ".toList ++ b.path ++ " - ".toList ++ side ++ " */\n".toList

/-- The comment in front of the content. -/
def opening (b : Boundary) : Text :=
  b.comment "START".toList

/-- The comment after the content. -/
def closing (b : Boundary) : Text :=
  b.comment "END".toList

/-- The content between its two comments. -/
def wrap (b : Boundary) (content : Text) : Text :=
  b.opening ++ content ++ b.closing

end Boundary

end StyleBundle

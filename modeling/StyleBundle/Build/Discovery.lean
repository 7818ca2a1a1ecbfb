import StyleBundle.Build.Error
import StyleBundle.Glob.Walk

/-!
# Discovering entries

Which stylesheets of a directory are built on their own, and which belong to an entry group.
Files of packages never count, and partials do not count when they are to be ignored.
-/

namespace StyleBundle

/-- The patterns of one entry group. -/
structure GroupPatterns where
  /-- The patterns. -/
  patterns : List (List Glob.Token)
deriving DecidableEq

namespace GroupPatterns

/-- Reads the patterns of a group. -/
def compile (patterns : List Text) : Except BuildError GroupPatterns := do
  let read ← patterns.mapM fun pattern =>
    match Glob.tokens pattern with
    | .ok tokens => .ok tokens
    | .error cause => .error (.pattern pattern cause)
  return ⟨read⟩

/-- Whether a relative path matches one of the patterns. -/
def accepts (g : GroupPatterns) (relative : Path) : Bool :=
  g.patterns.any fun tokens => Glob.accepts tokens relative.display

end GroupPatterns

/-- Where entries are looked for. -/
structure Discovery where
  /-- The directory of the stylesheets. -/
  stylesDir : Path
  /-- Whether partials are left out. -/
  ignorePartials : Bool
deriving DecidableEq

namespace Discovery

/-- The directory of packages. -/
def packageDir : Text := "node_modules".toList

/-- The patterns of all stylesheets. -/
def entryPatterns : List Text :=
  ["**/*.scss".toList, "**/*.sass".toList]

/-- The path relative to the directory of the stylesheets. -/
def relative (d : Discovery) (p : Path) : Path :=
  (p.stripPrefix? d.stylesDir).getD p

/-- Whether the path is a file that may be an entry. -/
def isCandidate (d : Discovery) (tree : FileTree) (p : Path) : Bool :=
  !(d.relative p).components.contains (.normal packageDir) &&
    !(d.ignorePartials && p.isPartial) && tree.isFile p

/-- The paths in the directory of the stylesheets that a pattern finds. -/
def find (d : Discovery) (tree : FileTree) (pattern : Text) : Except BuildError (List Path) :=
  match Glob.find tree (Glob.escape d.stylesDir.display ++ '/' :: pattern) with
  | .ok paths => .ok paths
  | .error cause => .error (.pattern pattern cause)

/-- The paths that some patterns find, one pattern after the other. -/
def findAll (d : Discovery) (tree : FileTree) (patterns : List Text) :
    Except BuildError (List Path) := do
  let found ← patterns.mapM (d.find tree)
  return found.flatten

/-- The list without elements that are the same as the one before them. -/
def dropRepeats : List Path → List Path
  | p :: q :: rest => if p.same q then dropRepeats (p :: rest) else p :: dropRepeats (q :: rest)
  | paths => paths

/-- The paths in order, each once. -/
def ordered (paths : List Path) : List Path :=
  dropRepeats (paths.mergeSort Path.le)

/-- The stylesheets that no group takes. -/
def entries (d : Discovery) (tree : FileTree) (groups : List GroupPatterns) :
    Except BuildError (List Path) := do
  let found ← d.findAll tree entryPatterns
  return ordered (found.filter fun p =>
    d.isCandidate tree p && !groups.any (·.accepts (d.relative p)))

/-- The members of a group with the given patterns. -/
def members (d : Discovery) (tree : FileTree) (patterns : List Text) :
    Except BuildError (List Path) := do
  let found ← d.findAll tree patterns
  return ordered (found.filter (d.isCandidate tree))

end Discovery

end StyleBundle

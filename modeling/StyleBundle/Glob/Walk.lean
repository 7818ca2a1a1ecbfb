import StyleBundle.FileTree.Basic
import StyleBundle.Glob.Pattern

/-!
# Finding files by pattern

A pattern is followed through a file tree component by component.  A component without wildcards
is looked up as it is, so that hidden names, `.` and `..` work.  A component with wildcards lists
the directory, where hidden names are left out.  A pattern that ends in a slash finds directories
only.
-/

namespace StyleBundle

namespace Glob

/-- One component of a pattern. -/
inductive Step where
  /-- A name without wildcards. -/
  | name (name : Text)
  /-- Names that match. -/
  | pattern (tokens : List Token)
  /-- Any number of directories. -/
  | recursive
deriving DecidableEq

/-- The name that tokens without wildcards write. -/
def literal? : List Token → Option Text
  | [] => some []
  | .literal c :: rest => (literal? rest).map (c :: ·)
  | _ :: _ => none

/-- The step of a component. -/
def stepOf (tokens : List Token) : Step :=
  match literal? tokens with
  | some name => .name name
  | none => if tokens.contains .recursive then .recursive else .pattern tokens

/-- The steps with runs of `**` taken together. -/
def collapse : List Step → List Step
  | [] => []
  | .recursive :: rest =>
    match collapse rest with
    | .recursive :: later => .recursive :: later
    | later => .recursive :: later
  | step :: rest => step :: collapse rest

/-- Whether the step takes the name of an entry. -/
def Step.accepts : Step → Text → Bool
  | name wanted, given => wanted == given
  | pattern tokens, given => Glob.accepts tokens given
  | recursive, _ => false

/-- A pattern cut into steps. -/
structure Route where
  /-- The place where the route starts. -/
  start : Path
  /-- The steps. -/
  steps : List Step
  /-- Whether only directories are found. -/
  directoriesOnly : Bool
deriving DecidableEq

/-- The pieces of a text between slashes.  A slash at the end makes no piece. -/
def pieces (t : Text) : List Text :=
  let all := t.split '/'
  if all.getLast? = some [] then all.dropLast else all

/-- Reads a pattern.  The whole pattern must be right, and each of its components. -/
def route (pattern : Text) : Except PatternError Route := do
  let _ ← tokens pattern
  let (start, rest) :=
    match pattern with
    | '/' :: rest => (['/'], rest)
    | rest => (['.'], rest)
  let components ← (pieces rest).mapM tokens
  let steps := if pattern = ['/'] then [.name []] else components.map stepOf
  return ⟨⟨start⟩, collapse steps, pattern.getLast? = some '/'⟩

/-- An entry of a directory as a path.  Entries of the current directory are named alone. -/
def child (directory : Path) (name : Text) : Path :=
  if directory.same ⟨['.']⟩ then ⟨name⟩ else directory.push name

/-- The entries of a directory whose names do not start with a dot, in the order of names. -/
def visibleChildren (tree : FileTree) (directory : Path) : List (Text × Path) :=
  match tree.names directory with
  | .ok names =>
    (names.filter fun name => name.head? ≠ some '.').map fun name => (name, child directory name)
  | .error _ => []

/-- The entries at any depth below a directory, each worked on by `found` before what lies below
it. -/
def below (tree : FileTree) (found : Text → Path → List Path) : (depth : Nat) → Path → List Path
  | 0, _ => []
  | depth + 1, directory =>
    (visibleChildren tree directory).flatMap fun (name, p) =>
      found name p ++ if tree.isDirectory p then below tree found depth p else []

/-- Whether a name stands for the directory itself or the one above it. -/
def isDots (name : Text) : Bool :=
  name == ['.'] || name == ['.', '.']

/-- The special entries that a pattern with a leading dot names, in the order in which they are
tried. -/
def dotEntries (tokens : List Token) : List Text :=
  if tokens.head? = some (.literal '.') then
    [['.', '.'], ['.']].filter (Glob.accepts tokens)
  else []

/-- The path as a result. -/
def result (tree : FileTree) (directoriesOnly : Bool) (p : Path) : List Path :=
  if directoriesOnly && !tree.isDirectory p then [] else [p]

/-- Follows steps from a path. -/
def follow (tree : FileTree) (directoriesOnly : Bool) : List Step → Path → List Path
  | [], p => result tree directoriesOnly p
  | .name name :: rest, p =>
    let next := child p name
    let there := if isDots name then tree.isDirectory p else tree.hasEntry next
    if there then follow tree directoriesOnly rest next else []
  | .pattern tokens :: rest, p =>
    if tree.isDirectory p then
      let special := (dotEntries tokens).map p.push
      let matching := (visibleChildren tree p).filter fun (name, _) => Glob.accepts tokens name
      (special ++ matching.map Prod.snd).flatMap (follow tree directoriesOnly rest)
    else []
  | [.recursive], p =>
    below tree (fun _ q => if tree.isDirectory q then [q] else []) (tree.entries.length + 1) p
  | .recursive :: next :: rest, p =>
    below tree
      (fun name q => if next.accepts name then follow tree directoriesOnly rest q else [])
      (tree.entries.length + 1) p

/-- The paths that a route leads to.  A route without steps leads nowhere. -/
def Route.destinations (tree : FileTree) (r : Route) : List Path :=
  if r.steps.isEmpty then [] else follow tree r.directoriesOnly r.steps r.start

/-- The paths that a pattern finds. -/
def find (tree : FileTree) (pattern : Text) : Except PatternError (List Path) := do
  return (← route pattern).destinations tree

end Glob

end StyleBundle

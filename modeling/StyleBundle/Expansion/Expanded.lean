import StyleBundle.Boundary
import StyleBundle.Directive
import StyleBundle.Expansion.Session
import StyleBundle.Expansion.Splice
import StyleBundle.Resolve.Search

/-!
# Expansion

Every directive of a text is replaced by what it asks for.  All `require` directives are worked
out first, then all `require_tree` directives, each kind in the order of the text.  The results
are spliced into the text.

* `Catalog.expandText` expands a text that stands in a file.
* `Catalog.expandFile` reads a file and expands it.
* `Catalog.bundleFile` expands a file and puts its boundary marker around it.
* `Catalog.expandTree` bundles the stylesheets of a directory.

The recursion follows chains of inclusion.  A chain that is longer than the number of files must
come back to a file, so its end is reported as circular.
-/

namespace StyleBundle

/-- An expanded text and the files that went into it. -/
structure Expanded where
  /-- The text with every directive replaced. -/
  content : Text
  /-- The files, in the order in which they were first used. -/
  dependencies : List Path
deriving DecidableEq

namespace Expanded

/-- Nothing, from no file. -/
def empty : Expanded := ⟨[], []⟩

end Expanded

namespace Catalog

/-- Reads a file. -/
def readText (c : Catalog) (p : Path) : Expansion Text := fun s =>
  match c.source.read p with
  | .ok text => .ok text (s.record p text)
  | .error cause => .error (.unreadable p cause) s

/-- Reads a file and expands it with `expand`. -/
def expandRead (c : Catalog) (expand : Text → Path → Expansion Expanded) (p : Path) :
    Expansion Expanded := do
  let text ← c.readText p
  expand text p

/-- Whether a directory entry is a stylesheet of a tree. -/
def isTreeMember (p : Path) : Bool :=
  match p.fileName? with
  | some name => name.endsWith ".scss".toList
  | none => false

/-- The directory that a tree reference names. -/
def treeDirectory (tree : Text) (directory : Path) : Path :=
  (directory.push ((Text.after? "./".toList tree).getD tree)).normalize

/-- The order of tree members: by file name. -/
def leByName (p q : Path) : Bool :=
  Text.le (p.fileName?.getD []) (q.fileName?.getD [])

/-- The stylesheets directly in a directory, by file name.  There are none when the directory
cannot be listed. -/
def treeMembers (source : Source) (directory : Path) : List Path :=
  if source.isDirectory directory then
    match source.list directory with
    | .ok entries =>
      (entries.filter fun p => isTreeMember p && source.isFile p).mergeSort leByName
    | .error _ => []
  else []

/-- The expanded stylesheets of a directory, one after the other in their markers. -/
def joinMembers (members : List (Path × Expanded)) : Expanded where
  content := Text.joinWith ['\n'] (members.map fun (p, e) => (Boundary.ofPath p).wrap e.content)
  dependencies := members.flatMap fun (p, e) => p :: e.dependencies

/-- Expands the stylesheets of a directory with `expand`. -/
def expandTreeWith (c : Catalog) (expand : Path → Expansion Expanded) (tree : Text)
    (directory : Path) : Expansion Expanded := do
  let members ← (treeMembers c.source (treeDirectory tree directory)).mapM fun p => do
    let expanded ← expand p
    return (p, expanded)
  return joinMembers members

/-- What a directive contributes: the text in its place and the files used. -/
structure Contribution where
  /-- The text in place of the directive. -/
  replacement : Replacement
  /-- The files used. -/
  dependencies : List Path
deriving DecidableEq

/-- The contribution of a directive whose place is taken by an expanded text. -/
def contribute (d : Directive) (content : Text) (dependencies : List Path) : Contribution :=
  ⟨⟨d.start, d.stop, content⟩, dependencies⟩

/-- The contribution of a `require` directive in a file of the directory. -/
def contributeFile (c : Catalog) (expand : Path → Expansion Expanded) (directory : Path)
    (d : Directive) : Expansion Contribution := do
  let found ← Expansion.ofExcept (c.locate d.target directory)
  let expanded ← expand found
  return contribute d expanded.content (found :: expanded.dependencies)

/-- The contribution of a `require_tree` directive in a file of the directory. -/
def contributeTree (c : Catalog) (expand : Path → Expansion Expanded) (directory : Path)
    (d : Directive) : Expansion Contribution := do
  let expanded ← c.expandTreeWith expand d.target directory
  return contribute d expanded.content expanded.dependencies

/-- The directives of one kind. -/
def ofKind (kind : Directive.Kind) (directives : List Directive) : List Directive :=
  directives.filter fun d => d.kind = kind

/-- The text with the contributions in place. -/
def assemble (text : Text) (contributions : List Contribution) : Expanded where
  content :=
    Replacement.splice text (Replacement.sorted (contributions.map Contribution.replacement))
  dependencies := Path.dedup (contributions.flatMap Contribution.dependencies)

/-- Expands the directives of a text that stands in a file of the directory. -/
def expandDirectives (c : Catalog) (expand : Path → Expansion Expanded) (text : Text)
    (directory : Path) : Expansion Expanded := do
  let directives := Directive.parse text
  let files ← (ofKind .require directives).mapM (c.contributeFile expand directory)
  let trees ← (ofKind .requireTree directives).mapM (c.contributeTree expand directory)
  return assemble text (files ++ trees)

/-- Expands a text that stands in the file `p`, along chains of at most `depth` files. -/
def expandWithin (c : Catalog) : (depth : Nat) → Text → Path → Expansion Expanded
  | 0, _, p => throw (.circular p.normalize)
  | depth + 1, text, p =>
    Expansion.guarded p.normalize
      (c.expandDirectives (c.expandRead (c.expandWithin depth)) text p.normalize.directory)

/-- The depth that no chain of different files exceeds. -/
def depth (c : Catalog) : Nat :=
  c.source.chainLimit + 1

/-- Expands a text that stands in the file `p`. -/
def expandText (c : Catalog) (text : Text) (p : Path) : Expansion Expanded :=
  c.expandWithin c.depth text p

/-- Reads a file and expands it. -/
def expandFile (c : Catalog) (p : Path) : Expansion Expanded :=
  c.expandRead c.expandText p

/-- Reads and expands a file and puts its marker around it.  The file itself comes first among the
dependencies. -/
def bundleFile (c : Catalog) (p : Path) : Expansion Expanded := do
  let p := p.normalize
  let expanded ← c.expandFile p
  return {
    content := (Boundary.ofPath p).wrap expanded.content
    dependencies := Path.dedup (p :: expanded.dependencies)
  }

/-- Expands the stylesheets of the directory that `tree` names from `directory`. -/
def expandTree (c : Catalog) (tree : Text) (directory : Path) : Expansion Expanded :=
  c.expandTreeWith c.expandFile tree directory

end Catalog

end StyleBundle

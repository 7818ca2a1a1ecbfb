import StyleBundle.Text.Basic

/-!
# Paths

A path is a text in which slashes separate names.  The text is kept as written, and
most questions about a path are questions about its components: repeated slashes, a slash
at the end and every `.` but a leading one do not count.

* `Path.components` reads a path, `Path.ofComponents` writes the clean text.
* `Path.same` compares two paths by their components, `Path.le` orders them.
* `Path.join`, `Path.parent?`, `Path.fileName?`, `Path.extension?`,
  `Path.withExtension` and `Path.stripPrefix?` work on the text as it is written.
-/

namespace StyleBundle

/-- One step of a path. -/
inductive Component where
  /-- The leading slash of an absolute path. -/
  | root
  /-- A leading `.`. -/
  | current
  /-- A step up, `..`. -/
  | parent
  /-- A step to a named entry. -/
  | normal (name : Text)
deriving DecidableEq

namespace Component

/-- The component as it is written. -/
def text : Component → Text
  | root => ['/']
  | current => ['.']
  | parent => ['.', '.']
  | normal name => name

/-- The place of a kind of component in the order of paths. -/
def rank : Component → Nat
  | root => 0
  | current => 1
  | parent => 2
  | normal _ => 3

/-- Components are ordered by kind, and names by code points. -/
def le : Component → Component → Bool
  | normal a, normal b => Text.le a b
  | a, b => a.rank ≤ b.rank

/-- Whether a piece between slashes does not count. -/
def idle (piece : Text) : Bool :=
  piece == [] || piece == ['.']

/-- The component that a piece between slashes stands for. -/
def ofPiece? (piece : Text) : Option Component :=
  if idle piece then none
  else if piece = ['.', '.'] then some parent
  else some (normal piece)

end Component

/-- A path as it is written. -/
structure Path where
  /-- The text of the path. -/
  text : Text
deriving DecidableEq

namespace Path

/-- The path without any component. -/
def empty : Path := ⟨[]⟩

/-- An absolute path starts with a slash. -/
def isAbsolute (p : Path) : Bool :=
  p.text.head? == some '/'

/-- The text in front of the names: the slash of an absolute path, or a leading `.`. -/
def lead (p : Path) : Text :=
  if p.isAbsolute then ['/']
  else if (p.text.split '/').head? = some ['.'] then ['.']
  else []

/-- The component that the lead stands for. -/
def leadComponents (p : Path) : List Component :=
  if p.isAbsolute then [.root]
  else if (p.text.split '/').head? = some ['.'] then [.current]
  else []

/-- The components of a path. -/
def components (p : Path) : List Component :=
  p.leadComponents ++ (p.text.split '/').filterMap Component.ofPiece?

/-- Two paths are the same when their components are. -/
def same (p q : Path) : Bool :=
  p.components == q.components

/-- Whether a path with the same components is in the list. -/
def isIn (p : Path) (paths : List Path) : Bool :=
  paths.any p.same

/-- The paths without those that are the same as an earlier one. -/
def dedup (paths : List Path) : List Path :=
  firstOccurrences Path.same paths

/-- The order of component lists. -/
def leComponents : List Component → List Component → Bool
  | [], _ => true
  | _ :: _, [] => false
  | a :: s, b :: t => if a = b then leComponents s t else a.le b

/-- Paths are ordered component by component. -/
def le (p q : Path) : Bool :=
  leComponents p.components q.components

/-- `q` as seen from `p`.  An absolute `q` is taken as it is. -/
def join (p q : Path) : Path :=
  if q.isAbsolute then q
  else if p.text = [] || p.text.getLast? = some '/' then ⟨p.text ++ q.text⟩
  else ⟨p.text ++ '/' :: q.text⟩

/-- `p` followed by a piece of path text. -/
def push (p : Path) (piece : Text) : Path :=
  p.join ⟨piece⟩

/-- The clean path with the given components. -/
def ofComponents (steps : List Component) : Path :=
  steps.foldl (fun p step => p.push step.text) empty

/-! ## Parts of the text -/

/-- The pieces after the lead. -/
def body (p : Path) : List Text :=
  Text.split '/' (p.text.drop p.lead.length)

/-- The pieces after the lead, last one first, without those at the end that do not count. -/
def backward (p : Path) : List Text :=
  p.body.reverse.dropWhile Component.idle

/-- The path with the given lead and with pieces in backward order. -/
def ofBackward (lead : Text) (pieces : List Text) : Path :=
  ⟨lead ++ Text.joinWith ['/'] pieces.reverse⟩

/-- The path without its last component.  The root and the empty path have no parent. -/
def parent? (p : Path) : Option Path :=
  match p.backward with
  | _ :: before => some (ofBackward p.lead (before.dropWhile Component.idle))
  | [] => if p.lead = ['.'] then some empty else none

/-- The directory that a path lies in, the empty path when it has none. -/
def directory (p : Path) : Path :=
  p.parent?.getD empty

/-- The path, its parent, the parent of that and so on, at most `steps` times. -/
def ancestorsUpTo : (steps : Nat) → Path → List Path
  | 0, p => [p]
  | steps + 1, p =>
    match p.parent? with
    | some up => p :: ancestorsUpTo steps up
    | none => [p]

/-- The path and everything above it, nearest first.  Every parent is shorter than its
child, so the length of the text bounds the chain. -/
def ancestors (p : Path) : List Path :=
  ancestorsUpTo p.text.length p

/-- The last component, when it is a name. -/
def fileName? (p : Path) : Option Text :=
  match p.components.getLast? with
  | some (.normal name) => some name
  | _ => none

/-- A name cut at its last dot, unless nothing stands in front of that dot. -/
def cutName? (name : Text) : Option (Text × Text) :=
  (Text.cutLast? '.' name).filter fun (stem, _) => stem ≠ []

/-- The part of the file name after its last dot. -/
def extension? (p : Path) : Option Text :=
  (p.fileName?.bind cutName?).map Prod.snd

/-- The part of a name in front of its extension. -/
def stem (name : Text) : Text :=
  match cutName? name with
  | some (front, _) => front
  | none => name

/-- The path with `tail` set after the stem of its file name.  A path without a file name
stays as it is. -/
def replaceAfterStem (p : Path) (tail : Text) : Path :=
  match p.fileName?, p.backward with
  | some name, _ :: before => ⟨(ofBackward p.lead (stem name :: before)).text ++ tail⟩
  | _, _ => p

/-- The path with another extension.  As many characters as the old extension has are cut
off the end of the text first. -/
def withExtension (p : Path) (extension : Text) : Path :=
  let cut : Path :=
    match p.extension? with
    | some old => ⟨p.text.take (p.text.length - old.length)⟩
    | none => p
  cut.replaceAfterStem ('.' :: extension)

/-- Whether the components of `base` are the first components of `p`. -/
def startsWith (p base : Path) : Bool :=
  base.components.isPrefixOf p.components

/-- The pieces that follow the first `n` counting pieces. -/
def dropCounting : (n : Nat) → List Text → List Text
  | 0, pieces => pieces
  | _ + 1, [] => []
  | n + 1, piece :: pieces =>
    if Component.idle piece then dropCounting (n + 1) pieces else dropCounting n pieces

/-- The text of `p` after the components of `base`, when `p` starts with them.  Pieces that
do not count are dropped at both ends of the result and kept inside it. -/
def stripPrefix? (p base : Path) : Option Path :=
  if p.startsWith base then
    let pieces := dropCounting (base.components.length - p.leadComponents.length) p.body
    if base.components = [] then
      some (ofBackward p.lead p.backward)
    else
      some (ofBackward [] ((pieces.dropWhile Component.idle).reverse.dropWhile Component.idle))
  else none

/-- The text of the path with slashes for backslashes. -/
def display (p : Path) : Text :=
  p.text.slashed

end Path

end StyleBundle

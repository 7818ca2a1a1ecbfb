import StyleBundle.Path.Normal
import StyleBundle.Source.Failure
import StyleBundle.Text.Utf8

/-!
# File trees

The files and directories below the root of a file system, and the directory that relative paths
start from.

An entry has a location, the list of names that leads to it from the root.  The root itself is
always there and is a directory.  `FileTree.locate` follows the text of a path to a location the
way an operating system does: every step needs a directory to start from.

An entry is a file or a directory.  Symbolic links, permissions and names that are not UTF-8 are
left out.  So an entry has one location, and a step up always takes back the name before it.
-/

namespace StyleBundle

/-- What a file holds. -/
inductive Content where
  /-- A text. -/
  | text (text : Text)
  /-- Bytes that are no text. -/
  | raw (bytes : List UInt8)
deriving DecidableEq

namespace Content

/-- The content that some bytes are. -/
def ofBytes (bytes : List UInt8) : Content :=
  match Utf8.decode? bytes with
  | some t => text t
  | none => raw bytes

/-- The content as a text, if it is one. -/
def text? : Content → Option Text
  | text t => some t
  | raw _ => none

/-- The content as a text, with replacement characters where it is none. -/
def lossy : Content → Text
  | text t => t
  | raw bytes => Utf8.decodeLossy bytes

end Content

/-- An entry of a file tree.  There are no symbolic links. -/
inductive Node where
  /-- A file. -/
  | file (content : Content)
  /-- A directory. -/
  | directory
deriving DecidableEq

/-- The names that lead from the root to an entry. -/
abbrev Location := List Text

/-- The absolute path of a location. -/
def Location.path (place : Location) : Path :=
  Path.ofComponents (.root :: place.map .normal)

/-- The files and directories of a file system. -/
structure FileTree where
  /-- The entries below the root. -/
  entries : List (Location × Node)
  /-- The directory that relative paths start from. -/
  workingDirectory : Location
deriving DecidableEq

namespace FileTree

/-- The entry at a location. -/
def node? (t : FileTree) (place : Location) : Option Node :=
  if place = [] then some .directory
  else (t.entries.find? fun (other, _) => other == place).map Prod.snd

/-- Whether there is a directory at the location. -/
def isDirectoryAt (t : FileTree) (place : Location) : Bool :=
  t.node? place == some .directory

/-- The tree with an entry at a location. -/
def set (t : FileTree) (place : Location) (node : Node) : FileTree :=
  { t with entries := (t.entries.filter fun (other, _) => other != place) ++ [(place, node)] }

/-- The tree without what lies below a location. -/
def emptied (t : FileTree) (place : Location) : FileTree :=
  { t with
    entries := t.entries.filter fun (other, _) => other == place || !place.isPrefixOf other }

/-- The tree without an entry and all that lies below it. -/
def erased (t : FileTree) (place : Location) : FileTree :=
  { t with entries := t.entries.filter fun (other, _) => !place.isPrefixOf other }

/-- The names directly below a location, in the order of code points. -/
def namesIn (t : FileTree) (place : Location) : List Text :=
  (t.entries.filterMap fun (other, _) =>
    if other.dropLast = place then other.getLast? else none).mergeSort Text.le

/-- The most bytes of one name. -/
def nameLimit : Nat := 255

/-- The bytes that a path text stays below. -/
def pathLimit : Nat := 4096

/-- Follows the pieces of a path from a location. -/
def walk (t : FileTree) (place : Location) : List Text → Except IoFailure Location
  | [] => .ok place
  | piece :: pieces =>
    if !t.isDirectoryAt place then .error (.os .notDirectory)
    else if Component.idle piece then t.walk place pieces
    else if piece = ['.', '.'] then t.walk place.dropLast pieces
    else if nameLimit < piece.byteLength then .error (.os .nameTooLong)
    else if (t.node? (place ++ [piece])).isNone then .error (.os .noEntry)
    else t.walk (place ++ [piece]) pieces

/-- The location that a path starts from.  A path that cannot be given to the operating system
has none. -/
def origin (t : FileTree) (p : Path) : Except IoFailure Location :=
  if p.text.contains '\x00' then .error .nulInPath
  else if p.text = [] then .error (.os .noEntry)
  else if pathLimit ≤ p.text.byteLength then .error (.os .nameTooLong)
  else if p.isAbsolute then .ok []
  else if t.isDirectoryAt t.workingDirectory then .ok t.workingDirectory
  else .error (.os .noEntry)

/-- The location that a path names. -/
def locate (t : FileTree) (p : Path) : Except IoFailure Location := do
  let place ← t.origin p
  t.walk place (p.text.split '/')

/-- The entry that a path names. -/
def lookup (t : FileTree) (p : Path) : Except IoFailure Node := do
  let place ← t.locate p
  match t.node? place with
  | some node => .ok node
  | none => .error (.os .noEntry)

/-! ## Questions -/

/-- Whether the path names an entry. -/
def hasEntry (t : FileTree) (p : Path) : Bool :=
  match t.lookup p with
  | .ok _ => true
  | .error _ => false

/-- Whether the path names a file. -/
def isFile (t : FileTree) (p : Path) : Bool :=
  match t.lookup p with
  | .ok (.file _) => true
  | _ => false

/-- Whether the path names a directory. -/
def isDirectory (t : FileTree) (p : Path) : Bool :=
  match t.lookup p with
  | .ok .directory => true
  | _ => false

/-- The text of a file. -/
def read (t : FileTree) (p : Path) : Except IoFailure Text := do
  match ← t.lookup p with
  | .file (.text text) => .ok text
  | .file (.raw _) => .error .notUtf8
  | .directory => .error (.os .isDirectory)

/-- The names in a directory, in the order of code points. -/
def names (t : FileTree) (p : Path) : Except IoFailure (List Text) := do
  let place ← t.locate p
  if t.isDirectoryAt place then .ok (t.namesIn place) else .error (.os .notDirectory)

/-- The entries of a directory, as paths that start with the path of the directory. -/
def list (t : FileTree) (p : Path) : Except IoFailure (List Path) := do
  let names ← t.names p
  .ok (names.map p.push)

end FileTree

end StyleBundle

import StyleBundle.FileTree.Basic

/-!
# Changing a file tree

Writing files, making and removing directories.  Each operation runs on a tree and may fail;
what was done before a failure stays done.
-/

namespace StyleBundle

namespace FileTree

/-- An operation on a file tree. -/
abbrev Action := EStateM IoFailure FileTree

/-- A path text cut before its last piece that is not empty.  The last part tells whether
slashes follow that piece. -/
def cutLastPiece (p : Path) : List Text × Option Text × Bool :=
  let pieces := p.text.split '/'
  let backward := pieces.reverse.dropWhile (· == [])
  match backward with
  | piece :: before => (before.reverse, some piece, pieces.getLast? == some [])
  | [] => ([], none, true)

/-- The directory in which the last piece of a path is looked up. -/
def parentPlace (t : FileTree) (p : Path) (before : List Text) : Except IoFailure Location := do
  let place ← t.walk (← t.origin p) before
  if t.isDirectoryAt place then .ok place else .error (.os .notDirectory)

/-- Where a file with the path would be written. -/
def writePlace (t : FileTree) (p : Path) : Except IoFailure Location := do
  let (before, last, slashes) := cutLastPiece p
  let place ← t.parentPlace p before
  match last with
  | none => .error (.os .isDirectory)
  | some piece =>
    if slashes || piece = ['.'] || piece = ['.', '.'] then .error (.os .isDirectory)
    else if nameLimit < piece.byteLength then .error (.os .nameTooLong)
    else if t.isDirectoryAt (place ++ [piece]) then .error (.os .isDirectory)
    else .ok (place ++ [piece])

/-- Where a directory with the path would be made. -/
def directoryPlace (t : FileTree) (p : Path) : Except IoFailure Location := do
  let (before, last, _) := cutLastPiece p
  let place ← t.parentPlace p before
  match last with
  | none => .error (.os .alreadyExists)
  | some piece =>
    if piece = ['.'] || piece = ['.', '.'] then .error (.os .alreadyExists)
    else if nameLimit < piece.byteLength then .error (.os .nameTooLong)
    else if (t.node? (place ++ [piece])).isSome then .error (.os .alreadyExists)
    else .ok (place ++ [piece])

/-- Writes a file.  A file that is there already gets the new content. -/
def write (p : Path) (content : Content) : Action Unit := fun t =>
  match t.writePlace p with
  | .ok place => .ok () (t.set place (.file content))
  | .error cause => .error cause t

/-- Makes one directory. -/
def makeDirectory (p : Path) : Action Unit := fun t =>
  match t.directoryPlace p with
  | .ok place => .ok () (t.set place .directory)
  | .error cause => .error cause t

/-- Makes the first directory of a list of ancestors, and before it those that it needs. -/
def makeChain : List Path → Action Unit
  | [] => pure ()
  | p :: above => fun t =>
    if p.text = [] then .ok () t
    else
      match makeDirectory p t with
      | .ok _ t => .ok () t
      | .error (.os .noEntry) t =>
        match makeChain above t with
        | .ok _ t =>
          match makeDirectory p t with
          | .ok _ t => .ok () t
          | .error cause t => if t.isDirectory p then .ok () t else .error cause t
        | .error cause t => .error cause t
      | .error cause t => if t.isDirectory p then .ok () t else .error cause t

/-- Makes a directory and every directory above it that is missing. -/
def makeDirectories (p : Path) : Action Unit :=
  makeChain p.ancestors

/-- Where an empty directory with the path would be removed. -/
def removalPlace (t : FileTree) (p : Path) : Except IoFailure Location := do
  let (before, last, _) := cutLastPiece p
  let place ← t.parentPlace p before
  match last with
  | none => .error (.os .busy)
  | some piece =>
    if piece = ['.'] then .error (.os .invalidArgument)
    else if piece = ['.', '.'] then .error (.os .notEmpty)
    else .ok (place ++ [piece])

/-- Removes a directory with all that lies below it.  The directory is emptied first and then
removed under its path.  If the path led through what is gone by then, the directory stays. -/
def removeDirectory (p : Path) : Action Unit := fun t =>
  match t.locate p with
  | .error cause => .error cause t
  | .ok place =>
    if t.isDirectoryAt place then
      let bare := t.emptied place
      match bare.removalPlace p with
      | .ok place => .ok () (bare.erased place)
      | .error (.os .noEntry) => .ok () bare
      | .error cause => .error cause bare
    else .error (.os .notDirectory) t

/-! ## Laying out a tree -/

/-- The tree with a directory at a location and everywhere above it. -/
def withDirectory (t : FileTree) (place : Location) : FileTree :=
  (List.range place.length).foldl
    (fun t n =>
      let above := place.take (n + 1)
      if t.isDirectoryAt above then t else t.set above .directory)
    t

/-- The tree with a file at a location and directories above it. -/
def withFile (t : FileTree) (place : Location) (content : Content) : FileTree :=
  (t.withDirectory place.dropLast).set place (.file content)

/-- The location of a relative path below a directory. -/
def placeBelow (base : Location) (p : Path) : Location :=
  base ++ p.normalize.components.filterMap fun
    | .normal name => some name
    | _ => none

end FileTree

end StyleBundle

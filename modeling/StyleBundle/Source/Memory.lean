import StyleBundle.Source.Basic

/-!
# Sources in memory

A tree of files given by their paths and texts.  Paths are compared by their components.  The
directories above a file exist with it.  Listings give the files in the order in which they were
added, then the directories in theirs.
-/

namespace StyleBundle

/-- A tree of files in memory. -/
structure Memory where
  /-- The files, in the order in which they were added. -/
  files : List (Path × Text)
  /-- The directories, in the order in which they came to be. -/
  directories : List Path
  /-- Paths whose reading is refused. -/
  unreadable : List Path
  /-- Directories whose listing is refused. -/
  unlistable : List Path
  /-- The number of successful reads. -/
  readCount : Nat

namespace Memory

/-- The tree without files. -/
def empty : Memory :=
  { files := [], directories := [], unreadable := [], unlistable := [], readCount := 0 }

/-- Adds a directory and everything above it. -/
def addDirectory (m : Memory) (p : Path) : Memory :=
  let missing := p.ancestors.filter fun a => a.text ≠ [] && !a.isIn m.directories
  { m with directories := m.directories ++ missing }

/-- Adds a file.  A file at the same path is replaced and moves to the end. -/
def addFile (m : Memory) (p : Path) (text : Text) : Memory :=
  let m :=
    match p.parent? with
    | some up => m.addDirectory up
    | none => m
  { m with files := (m.files.filter fun (q, _) => !p.same q) ++ [(p, text)] }

/-- The text of a file. -/
def read (m : Memory) (p : Path) : Except IoFailure Text :=
  if p.isIn m.unreadable then .error (.described "denied".toList)
  else
    match m.files.find? fun (q, _) => p.same q with
    | some (_, text) => .ok text
    | none => .error (.described "not found".toList)

/-- Whether the path names a file. -/
def isFile (m : Memory) (p : Path) : Bool :=
  m.files.any fun (q, _) => p.same q

/-- Whether the path names a directory. -/
def isDirectory (m : Memory) (p : Path) : Bool :=
  p.isIn m.directories

/-- Whether `p` lies directly in `directory`. -/
def liesIn (directory p : Path) : Bool :=
  match p.parent? with
  | some up => directory.same up
  | none => false

/-- The entries of a directory. -/
def list (m : Memory) (p : Path) : Except IoFailure (List Path) :=
  if p.isIn m.unlistable then .error (.described "denied".toList)
  else if m.isDirectory p then
    .ok ((m.files.map Prod.fst ++ m.directories).filter (liesIn p))
  else .error (.described "not a directory".toList)

/-- The tree as a source. -/
def source (m : Memory) : Source where
  read := m.read
  isFile := m.isFile
  isDirectory := m.isDirectory
  list := m.list
  chainLimit := m.files.length

/-- Counts successful reads. -/
def countReads (m : Memory) (reads : List (Path × Text)) : Memory :=
  { m with readCount := m.readCount + reads.length }

end Memory

end StyleBundle

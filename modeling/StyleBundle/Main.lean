import StyleBundle.Cli.Run
import StyleBundle.FileTree.Change

/-!
# The program

Takes a picture of the project's files, runs the command line on it and writes back what has
changed.

The picture holds the configuration file, the stylesheet that is asked for and the files whose
paths stand on the standard input, one a line, as `find . -type f` prints them.  A terminal is not
read from.

No other program is started from here, so only builds without Sass succeed.
-/

namespace StyleBundle

namespace Program

/-- The location of a path, seen from a working directory. -/
def locationOf (workingDirectory : Location) (p : Path) : Location :=
  FileTree.placeBelow [] (workingDirectory.path.join p)

/-- A location as the file system takes it. -/
def pathOf (l : Location) : String :=
  String.ofList l.path.text

/-- The content of a file, if it can be read. -/
def contentAt? (l : Location) : IO (Option Content) :=
  try
    let bytes ← IO.FS.readBinFile (pathOf l)
    return some (.ofBytes bytes.toList)
  catch _ => return none

/-- Adds a file to the picture, if it can be read. -/
def depict (tree : FileTree) (l : Location) : IO FileTree := do
  match ← contentAt? l with
  | some content => return tree.withFile l content
  | none => return tree

/-- The lines of a stream. -/
partial def linesOf (input : IO.FS.Stream) : IO (List Text) := do
  let line ← input.getLine
  if line.isEmpty then return []
  return Text.lines line.toList ++ (← linesOf input)

/-- The paths on the standard input. -/
def listed : IO (List Path) := do
  let input ← IO.getStdin
  if ← input.isTty then return []
  return (← linesOf input).map Path.mk

/-- The variables of the environment. -/
def environment : IO Environment := do
  let content ← contentAt? ["proc".toList, "self".toList, "environ".toList]
  let pairs := ((content.map Content.lossy).getD []).split '\x00'
  return ⟨pairs.filterMap (Text.cutFirst? '='), none⟩

/-- The files that a request names itself, seen from the working directory. -/
def namedFiles (here : Location) : Cli.Request → List Path
  | .build o => o.config.elim (Config.candidates here) fun p => [p]
  | .expand o => o.file :: o.config.elim (Config.candidates here) fun p => [p]
  | _ => []

/-- The picture of the files that a request can reach. -/
def picture (request : Cli.Request) : IO FileTree := do
  let here := FileTree.placeBelow [] ⟨(toString (← IO.currentDir)).toList⟩
  let start := { (⟨[], []⟩ : FileTree).withDirectory here with workingDirectory := here }
  let paths := namedFiles here request ++ (← listed)
  (paths.map (locationOf here)).foldlM depict start

/-- The bytes of a content. -/
def bytesOf : Content → ByteArray
  | .text t => (String.ofList t).toUTF8
  | .raw bytes => ⟨bytes.toArray⟩

/-- Removes what is at a location, if it can be removed. -/
def remove (before : FileTree) (l : Location) : IO Unit :=
  try
    if before.isDirectoryAt l then IO.FS.removeDirAll (pathOf l) else IO.FS.removeFile (pathOf l)
  catch _ => return ()

/-- Writes back what has changed. -/
def writeBack (before after : FileTree) : IO Unit := do
  let change := Change.between [] before after
  for p in change.removed do
    remove before (FileTree.placeBelow [] ⟨p⟩)
  for p in change.directories do
    IO.FS.createDirAll (pathOf (FileTree.placeBelow [] ⟨p⟩))
  for (p, content) in change.files do
    IO.FS.writeBinFile (pathOf (FileTree.placeBelow [] ⟨p⟩)) (bytesOf content)

/-- Tells that no program can be started. -/
def noSass : Sass.Runner := fun _ _ =>
  .error (.described "starting programs is not supported".toList)

/-- Runs a command line and gives its exit code. -/
def run (arguments : List Text) : IO UInt32 := do
  let env ← environment
  let output ← IO.getStdout
  let host : Cli.Host := ⟨env, noSass, ⟨"/tmp".toList⟩, ← output.isTty⟩
  let before ←
    match Cli.Request.parse env arguments with
    | .ok (.help _) => pure ⟨[], []⟩
    | .ok .version => pure ⟨[], []⟩
    | .ok request => picture request
    | .error _ => pure ⟨[], []⟩
  let (outcome, after) := Cli.run host arguments before
  writeBack before after
  output.putStr (String.ofList outcome.output)
  (← IO.getStderr).putStr (String.ofList outcome.errors)
  return outcome.code.toUInt32

end Program

end StyleBundle

/-- Runs the command line. -/
def main (arguments : List String) : IO UInt32 :=
  StyleBundle.Program.run (arguments.map String.toList)

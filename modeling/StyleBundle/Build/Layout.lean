import StyleBundle.Build.Error
import StyleBundle.Build.Manifest
import StyleBundle.FileTree.Update
import StyleBundle.Source.Disk
import StyleBundle.Text.Whitespace

/-!
# The output directory

Where a build writes its files:

    single/<path of the entry>.css
    group/<name of the group>.css
    intermediate/...
    manifest.json
-/

namespace StyleBundle

/-- A step of a build.  What was written before an error stays. -/
abbrev Building := EStateM BuildError Disk

namespace Building

/-- Works on the files.  A failure is an error about `path`. -/
def onFiles (path : Path) (step : FileTree.Action Unit) : Building Unit := fun d =>
  match step d.tree with
  | .ok _ tree => .ok () { d with tree := tree }
  | .error cause tree => .error (.write path cause) { d with tree := tree }

end Building

/-- The output directory of a build. -/
structure Layout where
  /-- The directory. -/
  root : Path
deriving DecidableEq

namespace Layout

/-- The directory of stylesheets of their own. -/
def singleDir (l : Layout) : Path :=
  l.root.push "single".toList

/-- The directory of groups. -/
def groupDir (l : Layout) : Path :=
  l.root.push "group".toList

/-- The CSS file of an entry. -/
def singlePath (l : Layout) (relative : Path) : Path :=
  (l.singleDir.join relative).withExtension "css".toList

/-- The CSS file of a group. -/
def groupPath (l : Layout) (name : Text) : Path :=
  l.groupDir.push (name ++ ".css".toList)

/-- The file for the input of the compiler. -/
def intermediatePath (l : Layout) (relative : Path) : Path :=
  (l.root.push "intermediate".toList).join relative

/-- The manifest file. -/
def manifestPath (l : Layout) : Path :=
  l.root.push "manifest.json".toList

/-- The key of a file in the manifest. -/
def key (l : Layout) (p : Path) : Text :=
  ((p.stripPrefix? l.root).getD p).display

/-- Removes the output directory, if it is there. -/
def clear (l : Layout) : FileTree.Action Unit := fun t =>
  match FileTree.removeDirectory l.root t with
  | .error (.os .noEntry) t => .ok () t
  | outcome => outcome

/-- Makes the output directory anew. -/
def prepare (l : Layout) : Building Unit := do
  Building.onFiles l.root l.clear
  Building.onFiles l.singleDir (FileTree.makeDirectories l.singleDir)
  Building.onFiles l.groupDir (FileTree.makeDirectories l.groupDir)

/-- Writes a file and makes the directories that it needs. -/
def writeFile (p : Path) (content : Text) : Building Unit := do
  match p.parent? with
  | some directory => Building.onFiles directory (FileTree.makeDirectories directory)
  | none => pure ()
  Building.onFiles p (FileTree.write p (.text content))

/-- The source map file next to a CSS file. -/
def mapPath (cssPath : Path) : Path :=
  ⟨cssPath.text ++ ".map".toList⟩

/-- The CSS with a comment at its end that names the source map. -/
def withMapComment (cssPath : Path) (css : Text) : Text :=
  css.trimEnd ++ "\n/*# sourceMappingURL=".toList ++ (mapPath cssPath).fileName?.getD [] ++
    " */\n".toList

/-- Writes a stylesheet and its source map, if there is one, and gives the source map file. -/
def writeStylesheet (cssPath : Path) (css : Text) (sourceMap : Option Text) :
    Building (Option Path) := do
  match sourceMap with
  | none =>
    writeFile cssPath css
    return none
  | some sourceMap =>
    writeFile cssPath (withMapComment cssPath css)
    writeFile (mapPath cssPath) sourceMap
    return some (mapPath cssPath)

/-- Writes the manifest. -/
def writeManifest (l : Layout) (m : Manifest) : Building Unit :=
  writeFile l.manifestPath m.text

end Layout

end StyleBundle

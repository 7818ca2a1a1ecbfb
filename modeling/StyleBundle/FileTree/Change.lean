import StyleBundle.FileTree.Basic

/-!
# Changes of a file tree

What differs between two states of the tree below a directory: entries that are gone, directories
that are new, files that are new or hold something else.
-/

namespace StyleBundle

/-- The difference between two states of a tree. -/
structure Change where
  /-- The paths of entries that are gone. -/
  removed : List Text
  /-- The paths of new directories. -/
  directories : List Text
  /-- The paths of new or different files with their contents. -/
  files : List (Text × Content)
deriving DecidableEq

namespace Change

/-- The path text of a location relative to a directory above it. -/
def relativeText (base place : Location) : Text :=
  Text.joinWith ['/'] (place.drop base.length)

/-- The entries strictly below a directory. -/
def below (base : Location) (t : FileTree) : List (Location × Node) :=
  t.entries.filter fun (place, _) => base.isPrefixOf place && base != place

/-- The difference between two states of the tree below a directory, each part in the order of
its path texts. -/
def between (base : Location) (before after : FileTree) : Change where
  removed :=
    ((below base before).filterMap fun (place, _) =>
      if (after.node? place).isNone then
        some (relativeText base place) else none).mergeSort Text.le
  directories :=
    ((below base after).filterMap fun (place, node) =>
      if node = .directory && before.node? place != some .directory then
        some (relativeText base place)
      else none).mergeSort Text.le
  files :=
    ((below base after).filterMap fun (place, node) =>
      match node with
      | .file content =>
        if before.node? place = some (.file content) then none
        else some (relativeText base place, content)
      | .directory => none).mergeSort fun a b => Text.le a.1 b.1

end Change

end StyleBundle

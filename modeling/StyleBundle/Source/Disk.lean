import StyleBundle.FileTree.Basic
import StyleBundle.Source.Basic

/-!
# Cached reading from a file tree

A disk is a file tree with a cache of the texts that were read.  A text is read from the tree once
and comes from the cache afterwards, until the cache is cleared.  All other questions are answered
by the tree as it is.
-/

namespace StyleBundle

/-- A file tree with the texts read from it. -/
structure Disk where
  /-- The files. -/
  tree : FileTree
  /-- The texts that were read. -/
  cache : List (Path × Text)
deriving DecidableEq

namespace Disk

/-- The cached text of a path. -/
def cached? (d : Disk) (p : Path) : Option Text :=
  (d.cache.find? fun (q, _) => p.same q).map Prod.snd

/-- The text of a path, from the cache if it is there. -/
def read (d : Disk) (p : Path) : Except IoFailure Text :=
  match d.cached? p with
  | some text => .ok text
  | none => d.tree.read p

/-- The disk with the text of a path in the cache.  A text that is there already stays. -/
def remember (d : Disk) (p : Path) (text : Text) : Disk :=
  if (d.cached? p).isSome then d else { d with cache := d.cache ++ [(p, text)] }

/-- The disk after some successful reads, the latest first. -/
def rememberAll (d : Disk) (reads : List (Path × Text)) : Disk :=
  reads.foldr (fun (p, text) d => d.remember p text) d

/-- Reads a path and keeps the text. -/
def readThrough (d : Disk) (p : Path) : Except IoFailure Text × Disk :=
  match d.read p with
  | .ok text => (.ok text, d.remember p text)
  | .error cause => (.error cause, d)

/-- The disk with an empty cache. -/
def clearCache (d : Disk) : Disk :=
  { d with cache := [] }

/-- The disk as a source.  A path text is shorter than the limit, so a file has fewer spellings
than that which differ in their leading steps up. -/
def source (d : Disk) : Source where
  read := d.read
  isFile := d.tree.isFile
  isDirectory := d.tree.isDirectory
  list := d.tree.list
  chainLimit := (d.tree.entries.length + d.cache.length + 1) * FileTree.pathLimit

end Disk

end StyleBundle

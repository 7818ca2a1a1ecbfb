import StyleBundle.Resolve.Error
import StyleBundle.Resolve.Settings
import StyleBundle.Source.Basic

/-!
# Looking up imports

An import is looked up in three steps, each tried when the one before found nothing:

* the first alias that matches is replaced once;
* the file mappings whose pattern matches are tried in order;
* the current directory, the include paths and the fallback directories are searched, with each
  extension, for the name itself and for the name with an underscore.
-/

namespace StyleBundle

/-- The settings and the files that imports are looked up in. -/
structure Catalog where
  /-- The settings. -/
  settings : Settings
  /-- The files. -/
  source : Source

namespace Catalog

/-- The extensions that an import may leave out. -/
def knownExtensions : List Text :=
  [".scss".toList, ".sass".toList, ".css".toList]

/-- The extensions to try.  An import with a dot is taken to carry its extension. -/
def extensionsFor (target : Text) : List Text :=
  if target.contains '.' then [[]] else knownExtensions

/-- The file that the import names. -/
def plainCandidate (root : Path) (target extension : Text) : Path :=
  (root.push (target ++ extension)).normalize

/-- The file that the import names, with an underscore in front of its name. -/
def partialCandidate (root : Path) (target extension : Text) : Path :=
  match Text.cutLast? '/' target with
  | some (directory, name) =>
    ((root.push directory).push ('_' :: name ++ extension)).normalize
  | none => (root.push ('_' :: target ++ extension)).normalize

/-- The import with the first matching alias replaced. -/
def applyAlias (aliases : List Alias) (target : Text) : Text :=
  match aliases with
  | [] => target
  | a :: rest =>
    match Text.after? a.lead target with
    | some tail => a.replacement ++ tail
    | none => applyAlias rest target

/-- The first of the candidates that is a file. -/
def firstFile? (c : Catalog) (candidates : List Path) : Option Path :=
  candidates.find? c.source.isFile

/-- The places that a mapping points to. -/
def mappingCandidates (s : Settings) (m : Mapping) : List Path :=
  let target : Path := ⟨m.target⟩
  let scss := target.withExtension "scss".toList
  s.root.resolveIn target :: s.root.resolveIn scss :: s.includePaths.map (·.resolveIn scss)

/-- The file that a mapping gives for the import. -/
def findMapped? (c : Catalog) (target : Text) : Option Path :=
  c.settings.mappings.findSome? fun m =>
    if m.pattern.accepts target then c.firstFile? (mappingCandidates c.settings m) else none

/-- The directories to search, the current one first. -/
def searchRoots (s : Settings) (directory : Path) : List Path :=
  directory :: s.includePaths ++ s.fallbackDirs

/-- The file that the search finds for the import. -/
def search? (c : Catalog) (target : Text) (directory : Path) : Option Path :=
  (searchRoots c.settings directory).findSome? fun root =>
    (extensionsFor target).findSome? fun extension =>
      c.firstFile? [plainCandidate root target extension, partialCandidate root target extension]

/-- The file for an import whose alias has been replaced. -/
def findFile? (c : Catalog) (target : Text) (directory : Path) : Option Path :=
  (c.findMapped? target).or (c.search? target directory)

/-- The file for an import as it is written in a file of the directory. -/
def locate (c : Catalog) (target : Text) (directory : Path) : Except ResolveError Path :=
  match c.findFile? (applyAlias c.settings.aliases target) directory with
  | some found => .ok found
  | none => .error (.fileNotFound target)

/-- The files that the mappings point to. -/
def mappedFiles (s : Settings) : List Text :=
  s.mappings.map Mapping.target

end Catalog

end StyleBundle

import StyleBundle.Proofs.Expansion.Request
import StyleBundle.Proofs.Source.Disk
import StyleBundle.Proofs.Steps

/-!
# A file in its marker

To bundle a file is to expand its normal path and to put the marker of this path around the
result.  Expansion itself works with the normal path of a file (`Catalog.expandText_normalize`),
so the path as it is written matters only when the file is read.  Where a source reads both paths
alike (`Source.ReadsAlike`), bundling a file is expanding it and marking the result
(`Catalog.bundleFile_marked`).
-/

namespace StyleBundle

/-- The source has the same text for both paths, or none for either. -/
def Source.ReadsAlike (source : Source) (p q : Path) : Prop :=
  ∀ text, source.read p = .ok text ↔ source.read q = .ok text

theorem Source.ReadsAlike.refl (source : Source) (p : Path) : source.ReadsAlike p p :=
  fun _ => Iff.rfl

/-- A tree in memory reads a path like its normal path if both have the same components. -/
theorem Memory.readsAlike_normalize (m : Memory) {p : Path}
    (h : p.normalize.components = p.components) : m.source.ReadsAlike p p.normalize := by
  intro text
  change m.read p = .ok text ↔ m.read p.normalize = .ok text
  rw [Memory.read_congr h]

/-- A disk reads a path like its normal path if it names a file whenever its normal path does. -/
theorem Disk.Faithful.readsAlike_normalize {d : Disk} (h : d.Faithful) {p : Path}
    (hp : d.tree.isFile p.normalize = true → d.tree.isFile p = true) :
    d.source.ReadsAlike p p.normalize := by
  intro text
  change d.read p = .ok text ↔ d.read p.normalize = .ok text
  have hnormal : d.read p.normalize = d.tree.read p.normalize :=
    h.read_eq_of_normalize fun hfile => by rwa [Path.normalize_normalize] at hfile
  rw [h.read_eq_of_normalize hp, hnormal]
  constructor
  · intro hread
    rw [(FileTree.read_normalize (FileTree.isFile_of_read hread)).2, hread]
  · intro hread
    rw [← hread, (FileTree.read_normalize (hp (FileTree.isFile_of_read hread))).2]

/-- The result of a framed step, whatever was read before it. -/
theorem Expansion.Framed.resultOf_eq {α : Type} {step : Expansion α} (h : Framed step)
    (s : Session) :
    resultOf step s = outcome step s.inFlight := by
  obtain ⟨reads, hstep⟩ := h s
  rw [resultOf, hstep]
  cases outcome step s.inFlight <;> rfl

namespace Catalog

open Expansion

variable {c : Catalog} {p : Path} {s : Session}

/-- The result of bundling the file `p`, told from the result of expanding it: the same content in
the marker of the normal path, or the same error, which names the file itself by its normal
path. -/
inductive Marked (p : Path) : Except ResolveError Expanded → Except ResolveError Expanded → Prop
  | expanded (e : Expanded) :
    Marked p (.ok e)
      (.ok ⟨(Boundary.ofPath p.normalize).wrap e.content,
        Path.dedup (p.normalize :: e.dependencies)⟩)
  | failed (cause : ResolveError) : Marked p (.error cause) (.error cause)
  | unreadable (cause cause' : IoFailure) :
    Marked p (.error (.unreadable p cause)) (.error (.unreadable p.normalize cause'))

/-- Expansion works with the normal path of a file. -/
theorem expandText_normalize (c : Catalog) (text : Text) (p : Path) :
    c.expandText text p.normalize = c.expandText text p := by
  change Expansion.guarded p.normalize.normalize
    (c.expandDirectives _ text p.normalize.normalize.directory) =
    Expansion.guarded p.normalize (c.expandDirectives _ text p.normalize.directory)
  rw [Path.normalize_normalize]

theorem resultOf_expandFile (c : Catalog) (p : Path) (s : Session) :
    resultOf (c.expandFile p) s =
      match c.source.read p with
      | .ok text => outcome (c.expandText text p) s.inFlight
      | .error cause => .error (.unreadable p cause) := by
  rw [(framed_expandFile c p).resultOf_eq]
  exact outcome_expandRead (framed_expandWithin c c.depth) p

theorem resultOf_bundleFile (c : Catalog) (p : Path) (s : Session) :
    resultOf (c.bundleFile p) s =
      (resultOf (c.expandFile p.normalize) s).map fun e =>
        ⟨(Boundary.ofPath p.normalize).wrap e.content,
          Path.dedup (p.normalize :: e.dependencies)⟩ := by
  have hfile := framed_expandFile c p.normalize
  have hbundle : Framed (c.bundleFile p) := Request.framed_run c (.bundle p)
  rw [hbundle.resultOf_eq, hfile.resultOf_eq]
  change outcome (c.expandFile p.normalize >>= fun e => pure _) s.inFlight = _
  rw [outcome_bind hfile fun _ => framed_pure _]
  rfl

/-- What is true of the normal path is true of the path as it is written, if the source reads both
alike. -/
theorem marked_of_readsAlike (h : c.source.ReadsAlike p p.normalize) :
    Marked p (resultOf (c.expandFile p) s) (resultOf (c.bundleFile p) s) := by
  rw [resultOf_bundleFile, resultOf_expandFile, resultOf_expandFile]
  cases hread : c.source.read p with
  | ok text =>
    rw [(h text).1 hread]
    simp only [expandText_normalize]
    cases outcome (c.expandText text p) s.inFlight with
    | ok e => exact .expanded e
    | error cause => exact .failed cause
  | error cause =>
    cases hnormal : c.source.read p.normalize with
    | ok text =>
      rw [(h text).2 hnormal] at hread
      cases hread
    | error cause' => exact .unreadable cause cause'

/-- To bundle a file is to expand its normal path and to mark the result.  It is to expand the
file and to mark the result where the source reads the path like its normal path. -/
theorem bundleFile_marked (c : Catalog) (p : Path) (s : Session) :
    Marked p.normalize (resultOf (c.expandFile p.normalize) s) (resultOf (c.bundleFile p) s) ∧
      (c.source.ReadsAlike p p.normalize →
        Marked p (resultOf (c.expandFile p) s) (resultOf (c.bundleFile p) s)) := by
  refine ⟨?_, marked_of_readsAlike⟩
  have hbundle : resultOf (c.bundleFile p) s = resultOf (c.bundleFile p.normalize) s := by
    rw [resultOf_bundleFile, resultOf_bundleFile, Path.normalize_normalize]
  rw [hbundle]
  apply marked_of_readsAlike
  rw [Path.normalize_normalize]
  exact .refl _ _

/-! ### A way through another directory -/

/-- Settings with a root and nothing else. -/
def bypassSettings : Settings :=
  { root := ⟨"/s".toList⟩, includePaths := [], fallbackDirs := [], aliases := [], mappings := [],
    ignorePartials := false }

/-- A directory and a file beside it. -/
def bypassDisk : Disk :=
  ⟨⟨[(["s".toList], .directory), (["s".toList, "x".toList], .directory),
    (["s".toList, "a.scss".toList], .file (.text ".a".toList))], []⟩, []⟩

/-- The same file in memory, where nothing is known of a directory beside it. -/
def bypassMemory : Memory :=
  Memory.empty.addFile ⟨"/s/a.scss".toList⟩ ".a".toList

/-- The file, by way of the directory. -/
def bypass : Path := ⟨"/s/x/../a.scss".toList⟩

/-- The file in its marker. -/
def bypassBundle : Expanded where
  content :=
    "\n/* FILE_BOUNDARY: /s/a.scss - START */\n.a\n/* FILE_BOUNDARY: /s/a.scss - END */\n".toList
  dependencies := [⟨"/s/a.scss".toList⟩]

private theorem bypassBundle_eq :
    (⟨(Boundary.ofPath ⟨"/s/a.scss".toList⟩).wrap ".a".toList,
      Path.dedup [⟨"/s/a.scss".toList⟩]⟩ : Expanded) = bypassBundle := by
  rfl

/-- A file without directives is expanded to its own text. -/
private theorem resultOf_expandFile_of_parse_eq_nil {text : Text}
    (hread : c.source.read p = .ok text) (hparse : Directive.parse text = []) :
    resultOf (c.expandFile p) .start = .ok ⟨text, []⟩ := by
  rw [(framed_expandFile c p).resultOf_eq]
  exact fileOutcome_eq_ok_iff.2 ⟨text, hread, rfl, assembled_of_parse_eq_nil hparse⟩

private theorem eq_bypassBundle_of_marked {result : Except ResolveError Expanded}
    (hp : p.normalize = ⟨"/s/a.scss".toList⟩) (h : Marked p (.ok ⟨".a".toList, []⟩) result) :
    result = .ok bypassBundle := by
  cases h with
  | expanded => rw [hp, bypassBundle_eq]

/-- On the disk the way through the directory is there.  In memory a spelling without a step up is
as good as the path itself. -/
theorem bypass_marked :
    (bypassDisk.source.ReadsAlike bypass bypass.normalize ∧
      resultOf (Catalog.expandFile ⟨bypassSettings, bypassDisk.source⟩ bypass) .start =
        .ok ⟨".a".toList, []⟩ ∧
      resultOf (Catalog.bundleFile ⟨bypassSettings, bypassDisk.source⟩ bypass) .start =
        .ok bypassBundle) ∧
    bypassMemory.source.ReadsAlike ⟨"//s/./a.scss".toList⟩
      (Path.normalize ⟨"//s/./a.scss".toList⟩) ∧
      resultOf (Catalog.bundleFile ⟨bypassSettings, bypassMemory.source⟩
        ⟨"//s/./a.scss".toList⟩) .start = .ok bypassBundle := by
  have hfaithful : bypassDisk.Faithful := fun _ hentry => absurd hentry List.not_mem_nil
  have hdisk : bypassDisk.source.ReadsAlike bypass bypass.normalize :=
    hfaithful.readsAlike_normalize fun _ => rfl
  have hexpanded : resultOf
      (Catalog.expandFile ⟨bypassSettings, bypassDisk.source⟩ bypass) .start =
      .ok ⟨".a".toList, []⟩ := resultOf_expandFile_of_parse_eq_nil rfl rfl
  have hmarked := (bundleFile_marked ⟨bypassSettings, bypassDisk.source⟩ bypass .start).2 hdisk
  rw [hexpanded] at hmarked
  have hmemory := bypassMemory.readsAlike_normalize (p := ⟨"//s/./a.scss".toList⟩) rfl
  have hmarked' := (bundleFile_marked ⟨bypassSettings, bypassMemory.source⟩ _ .start).2 hmemory
  rw [resultOf_expandFile_of_parse_eq_nil rfl rfl] at hmarked'
  exact ⟨⟨hdisk, hexpanded, eq_bypassBundle_of_marked rfl hmarked⟩, hmemory,
    eq_bypassBundle_of_marked rfl hmarked'⟩

/-- In memory the file is not found by way of a directory, but it is bundled. -/
theorem bypass_found_by_bundle_only :
    resultOf (Catalog.expandFile ⟨bypassSettings, bypassMemory.source⟩ bypass) .start =
        .error (.unreadable bypass (.described "not found".toList)) ∧
      resultOf (Catalog.bundleFile ⟨bypassSettings, bypassMemory.source⟩ bypass) .start =
        .ok bypassBundle := by
  have hread : bypassMemory.source.read bypass.normalize = .ok ".a".toList := rfl
  have hnormal : bypass.normalize = ⟨"/s/a.scss".toList⟩ := rfl
  refine ⟨rfl, ?_⟩
  rw [resultOf_bundleFile, resultOf_expandFile_of_parse_eq_nil hread rfl, hnormal]
  exact congrArg Except.ok bypassBundle_eq

end Catalog

end StyleBundle

import StyleBundle.Proofs.Expansion.Assembly
import StyleBundle.Proofs.Expansion.Splice
import StyleBundle.Source.Memory

/-!
# Expansion is inclusion in place

`Catalog.inlined` is plain inclusion.  It walks a text once from left to right and copies what
stands outside of directives.  A `require` directive is replaced by the file that it leads to, and
a `require_tree` directive by the stylesheets of its directory in the order of their names, each
in its marker.  It knows no paths in flight, no passes and no offsets.  On files that include each
other it has no result.

Expansion does the same work in another order: all `require` directives first, then all
`require_tree` directives, and the results are put in place by their byte offsets.  Its content
is that of plain inclusion (`Catalog.expandText_eq_inlined`).
-/

namespace StyleBundle

namespace Catalog

open Expansion

variable {c : Catalog} {flight : InFlight}

/-! ## Plain inclusion -/

mutual

/-- The text of the file `p` with every directive replaced in its place. -/
def inlined (c : Catalog) (text : Text) (p : Path) : Option Text := do
  let parts ← (Piece.ofText text).mapM (c.inlinedPiece (d := p.normalize.directory))
  return parts.flatten
partial_fixpoint

/-- What stands in place of a piece of a file in the directory `d`. -/
def inlinedPiece (c : Catalog) (piece : Piece) (d : Path) : Option Text :=
  match piece with
  | .copied char => some [char]
  | .directive .require target => (c.locate target d).toOption >>= inlinedFile (c := c)
  | .directive .requireTree target => do
    let members := membersByName c.source (treeDirectory target d)
    let contents ← members.mapM (inlinedFile (c := c))
    return Text.joinWith ['\n'] (members.zipWith (fun q => (Boundary.ofPath q).wrap) contents)
partial_fixpoint

/-- A file with every directive replaced in its place. -/
def inlinedFile (p : Path) (c : Catalog) : Option Text :=
  (c.source.read p).toOption >>= c.inlined (p := p)
partial_fixpoint

end

theorem inlinedPiece_copied (directory : Path) (char : Char) :
    c.inlinedPiece (.copied char) directory = some [char] := by
  rw [inlinedPiece.eq_def]

theorem inlinedPiece_require {directory found : Path} {target : Text}
    (h : c.locate target directory = .ok found) :
    c.inlinedPiece (.directive .require target) directory = c.inlinedFile found := by
  rw [inlinedPiece.eq_def]
  simp only [h]
  rfl

theorem inlinedPiece_requireTree {directory : Path} {target : Text}
    {members : List (Path × Expanded)}
    (hpaths : membersByName c.source (treeDirectory target directory) = members.map Prod.fst)
    (h : ∀ m ∈ members, c.inlinedFile m.1 = some m.2.content) :
    c.inlinedPiece (.directive .requireTree target) directory =
      some (joinMembers members).content := by
  have hcontents : (members.map Prod.fst).mapM (fun q => c.inlinedFile q) =
      some (members.map fun m => m.2.content) := by
    rw [mapM_eq_some_iff, List.forall₂_map_left_iff, List.forall₂_map_right_iff]
    exact List.forall₂_same.2 h
  rw [inlinedPiece.eq_def]
  simp only [hpaths, hcontents]
  simp [joinMembers, List.zipWith_map, List.zipWith_self]

theorem inlinedFile_of_read {p : Path} {text : Text} (h : c.source.read p = .ok text) :
    c.inlinedFile p = c.inlined text p := by
  rw [inlinedFile.eq_def, h]
  rfl

/-! ## Contributions are pieces -/

/-- What a directive contributes is what plain inclusion puts in its place, if this is so for the
files that it leads to. -/
theorem fills_of_contributes {child : Path → Expanded → Prop} {directory : Path} {d : Directive}
    {x : Contribution} (hchild : ∀ q e, child q e → c.inlinedFile q = some e.content)
    (h : c.Contributes child directory d x) :
    Replacement.Fills (fun piece => c.inlinedPiece piece directory) d x.replacement := by
  cases h with
  | file found e hkind hlocate hfound =>
    refine ⟨rfl, rfl, ?_⟩
    rw [hkind, inlinedPiece_require hlocate, hchild found e hfound]
    rfl
  | tree members hkind hmembers =>
    refine ⟨rfl, rfl, ?_⟩
    rw [hkind]
    obtain ⟨hpaths, hmember⟩ := eq_map_fst_of_members hmembers
    exact inlinedPiece_requireTree hpaths fun m hm => hchild m.1 m.2 (hmember m hm)

theorem inlined_of_outcome {depth : Nat} {text : Text} {p : Path} {e : Expanded}
    (h : outcome (c.expandWithin depth text p) flight = .ok e) :
    c.inlined text p = some e.content := by
  induction depth generalizing flight text p e with
  | zero => exact absurd h outcome_expandWithin_zero_ne_ok
  | succ depth ih =>
    obtain ⟨_, contributions, hcontributions, rfl⟩ := outcome_expandWithin_eq_ok_iff.1 h
    have hchild : ∀ q e, c.fileOutcome depth (entered flight p) q = .ok e →
        c.inlinedFile q = some e.content := by
      intro q e hq
      obtain ⟨inner, hread, hinner⟩ := fileOutcome_eq_ok_iff_expandWithin.1 hq
      rw [inlinedFile_of_read hread]
      exact ih hinner
    have hfills : List.Forall₂
        (Replacement.Fills fun piece => c.inlinedPiece piece p.normalize.directory)
        (inTwoPasses (Directive.parse text)) (contributions.map Contribution.replacement) := by
      rw [List.forall₂_map_right_iff]
      exact hcontributions.imp fun d x hx => fills_of_contributes hchild hx
    obtain ⟨parts, hparts, hsplice⟩ :=
      Replacement.splice_eq_flatten (inlinedPiece_copied p.normalize.directory)
        (inTwoPasses_perm _) hfills
    rw [inlined.eq_def, mapM_eq_some_iff.2 hparts]
    exact congrArg some hsplice.symm

/-- Expansion, whatever is in flight, has the content of plain inclusion. -/
theorem expandText_eq_inlined (c : Catalog) (text : Text) (p : Path) (s s' : Session)
    (e : Expanded) (h : c.expandText text p s = .ok e s') : c.inlined text p = some e.content :=
  inlined_of_outcome ((framed_expandWithin c c.depth text p).outcome_of_ok h)

/-! ### A text with both kinds of directives -/

/-- The path of the text. -/
def mixedEntry : Path := ⟨"a".toList⟩

/-- A file that is asked for by the text and by a stylesheet of the tree. -/
def mixedFile : Path := ⟨"b.scss".toList⟩

/-- The stylesheet of the tree. -/
def mixedMember : Path := ⟨"t/c.scss".toList⟩

/-- The file and the stylesheet of the tree. -/
def mixed : Catalog where
  settings :=
    { root := ⟨"/".toList⟩, includePaths := [], fallbackDirs := [], aliases := [], mappings := [],
      ignorePartials := false }
  source :=
    ((Memory.empty.addFile mixedFile "B".toList).addFile mixedMember
      "C//= require '../b.scss'".toList).source

/-- The tree stands in front of the file, but the file is worked out first. -/
def mixedText : Text := "x//= require_tree 't'\ny//= require 'b'".toList

/-- What the text expands to. -/
def mixedExpanded : Expanded where
  content :=
    ("x\n/* FILE_BOUNDARY: t/c.scss - START */\nCB\n/* FILE_BOUNDARY: t/c.scss - END */\n" ++
      "\nyB").toList
  dependencies := [mixedFile, mixedMember]

theorem mixed_file {depth : Nat} {flight : InFlight}
    (h : flight.contains mixedFile.normalize = false) :
    mixed.fileOutcome (depth + 1) flight mixedFile = .ok ⟨"B".toList, []⟩ :=
  fileOutcome_eq_ok_iff.2 ⟨_, rfl, h, assembled_of_parse_eq_nil (by decide)⟩

theorem mixed_member :
    mixed.fileOutcome 2 (entered .empty mixedEntry) mixedMember =
      .ok ⟨"CB".toList, [mixedFile]⟩ := by
  have hparse : Directive.parse "C//= require '../b.scss'".toList =
      [⟨.require, "../b.scss".toList, "//= require '../b.scss'".toList, 1⟩] := by decide
  refine fileOutcome_eq_ok_iff.2 ⟨_, rfl, by decide, assembled_of_parse_eq_singleton hparse
    (.file mixedFile ⟨"B".toList, []⟩ rfl rfl (mixed_file ?_)) ?_ ?_⟩
  · decide
  · decide
  · decide

private theorem mixed_expandText :
    ∃ s, mixed.expandText mixedText mixedEntry .start = .ok mixedExpanded s := by
  have hdirectives : inTwoPasses (Directive.parse mixedText) =
      [⟨.require, "b".toList, "//= require 'b'".toList, 23⟩,
        ⟨.requireTree, "t".toList, "//= require_tree 't'".toList, 1⟩] := by decide
  have hmembers : membersByName mixed.source
      (treeDirectory "t".toList mixedEntry.normalize.directory) = [mixedMember] := by decide
  let block := (Boundary.ofPath mixedMember).wrap "CB".toList
  apply (framed_expandWithin mixed mixed.depth mixedText mixedEntry).exists_ok
  refine outcome_expandWithin_eq_ok_iff.2 ⟨rfl,
    [⟨⟨23, 38, "B".toList⟩, [mixedFile]⟩, ⟨⟨1, 21, block⟩, [mixedMember, mixedFile]⟩], ?_, ?_⟩
  · rw [hdirectives]
    refine .cons (.file mixedFile ⟨"B".toList, []⟩ rfl rfl (mixed_file (by decide)))
      (.cons ?_ .nil)
    refine .tree [(mixedMember, ⟨"CB".toList, [mixedFile]⟩)] rfl ?_
    rw [hmembers]
    exact .cons ⟨rfl, mixed_member⟩ .nil
  · have hsorted := Replacement.sorted_eq
      (List.Perm.swap (⟨23, 38, "B".toList⟩ : Replacement) ⟨1, 21, block⟩ []) (by decide)
    rw [assemble, List.map_cons, List.map_singleton, hsorted]
    decide

theorem mixed_inlined :
    (∃ s, mixed.expandText mixedText mixedEntry .start = .ok mixedExpanded s) ∧
      mixed.inlined mixedText mixedEntry = some mixedExpanded.content := by
  obtain ⟨s, h⟩ := mixed_expandText
  exact ⟨⟨s, h⟩, expandText_eq_inlined mixed mixedText mixedEntry .start s mixedExpanded h⟩

end Catalog

end StyleBundle

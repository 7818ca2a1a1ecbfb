import StyleBundle.Proofs.Expansion.Cycle
import StyleBundle.Proofs.Expansion.Splice

/-!
# The list of dependencies

The files that went into an expansion are listed in the order in which they were first used.

`Catalog.inclusionTree` is the tree of all inclusions below a file.  The children of a file are
the files that its `require` directives lead to, in the order of the text, and after them the
stylesheets of its `require_tree` directives.  `InclusionTree.preorder` lists every file in front
of those that it includes.

Expansion cuts its lists down to first occurrences at every level, and joins the lists of a tree
as they are.  Both come to the same: the dependencies are the first occurrences in the order of
the tree (`Catalog.exists_inclusionTree`).  They are the files that a chain of inclusions leads to
(`Catalog.transGen_includes_iff`), so a file that is among its own dependencies would be on a
cycle.
-/

namespace StyleBundle

/-! ## Inclusion trees -/

/-- A file with the trees of the files that it includes. -/
inductive InclusionTree where
  | node (path : Path) (below : List InclusionTree)

/-- Every file in front of those that it includes. -/
def InclusionTree.preorder : InclusionTree → List Path
  | node path below => path :: below.flatMap preorder

namespace Catalog

open Expansion

variable {c : Catalog} {flight : InFlight}

/-- The files that the directives of a text lead to, `require` directives first.  There is no
answer when a target is not found. -/
def childrenIn (c : Catalog) (directory : Path) (text : Text) : Option (List Path) := do
  let directives := Directive.parse text
  let files ← (ofKind .require directives).mapM fun d => (c.locate d.target directory).toOption
  let trees := (ofKind .requireTree directives).flatMap fun d =>
    membersByName c.source (treeDirectory d.target directory)
  return files ++ trees

/-- The tree of all inclusions below a file.  There is none when a file cannot be read, a target
is not found, or the inclusions do not end. -/
def inclusionTree (p : Path) (c : Catalog) : Option InclusionTree := do
  let text ← (c.source.read p).toOption
  let children ← c.childrenIn p.normalize.directory text
  let below ← children.mapM (inclusionTree (c := c))
  return .node p below
partial_fixpoint

theorem inclusionTree_of_children {p : Path} {text : Text} {children : List Path}
    {below : List InclusionTree} (hread : c.source.read p = .ok text)
    (hchildren : c.childrenIn p.normalize.directory text = some children)
    (hbelow : List.Forall₂ (fun q tree => c.inclusionTree q = some tree) children below) :
    c.inclusionTree p = some (.node p below) := by
  rw [inclusionTree.eq_def, hread]
  change (c.childrenIn p.normalize.directory text >>= _) = _
  rw [hchildren, Option.bind_eq_bind, Option.bind_some, mapM_eq_some_iff.2 hbelow]
  rfl

theorem childrenIn_eq_some_iff {directory : Path} {text : Text} {children : List Path} :
    c.childrenIn directory text = some children ↔
      ∃ files, List.Forall₂ (fun d q => c.locate d.target directory = .ok q)
          (ofKind .require (Directive.parse text)) files ∧
        children = files ++ (ofKind .requireTree (Directive.parse text)).flatMap fun d =>
          membersByName c.source (treeDirectory d.target directory) := by
  rw [childrenIn, Option.bind_eq_bind, Option.bind_eq_some_iff]
  simp only [mapM_eq_some_iff, toOption_eq_some_iff]
  constructor
  · rintro ⟨files, hfiles, h⟩
    cases h
    exact ⟨files, hfiles, rfl⟩
  · rintro ⟨files, hfiles, rfl⟩
    exact ⟨files, hfiles, rfl⟩

/-- The children are the files that the directives lead to. -/
theorem mem_childrenIn {directory : Path} {text : Text} {children : List Path}
    (h : c.childrenIn directory text = some children) {q : Path} :
    q ∈ children ↔ ∃ d ∈ Directive.parse text, c.LeadsTo directory d q := by
  obtain ⟨files, hfiles, rfl⟩ := childrenIn_eq_some_iff.1 h
  rw [List.mem_append]
  constructor
  · rintro (hq | hq)
    · obtain ⟨d, hd, hlocate⟩ := exists_left_of_forall₂ hfiles hq
      obtain ⟨hmem, hkind⟩ := mem_ofKind.1 hd
      exact ⟨d, hmem, (leadsTo_require hkind).2 hlocate⟩
    · obtain ⟨d, hd, hmember⟩ := List.mem_flatMap.1 hq
      obtain ⟨hmem, hkind⟩ := mem_ofKind.1 hd
      exact ⟨d, hmem, (leadsTo_requireTree hkind).2 (mem_membersByName.1 hmember)⟩
  · rintro ⟨d, hmem, hlead⟩
    cases hkind : d.kind with
    | require =>
      left
      obtain ⟨q', hq', hlocate⟩ := exists_right_of_forall₂ hfiles (mem_ofKind.2 ⟨hmem, hkind⟩)
      rw [leadsTo_require hkind, hlocate] at hlead
      cases hlead
      exact hq'
    | requireTree =>
      right
      have hmember := mem_membersByName.2 ((leadsTo_requireTree hkind).1 hlead)
      exact List.mem_flatMap.2 ⟨d, mem_ofKind.2 ⟨hmem, hkind⟩, hmember⟩

/-! ## The files that an expansion used -/

section Used

variable {child : Path → Expanded → Prop} {directory : Path} {text : Text} {e : Expanded}

/-- The files that were used, each in front of its own dependencies. -/
def usedPaths (used : List (Path × Expanded)) : List Path :=
  used.flatMap fun u => u.1 :: u.2.dependencies

private theorem exists_used_files {directives : List Directive}
    {contributions : List Contribution} (hkind : ∀ d ∈ directives, d.kind = .require)
    (h : List.Forall₂ (c.Contributes child directory) directives contributions) :
    ∃ used, List.Forall₂ (fun d u => c.locate d.target directory = .ok u.1) directives used ∧
      contributions.flatMap Contribution.dependencies = usedPaths used ∧
        ∀ u ∈ used, child u.1 u.2 := by
  induction h with
  | nil => exact ⟨[], .nil, rfl, by simp⟩
  | cons hdx _ ih =>
    obtain ⟨used, hlocate, hpaths, hchild⟩ := ih fun d hd => hkind d (List.mem_cons_of_mem _ hd)
    cases hdx with
    | tree _ htree _ =>
      rw [hkind _ List.mem_cons_self] at htree
      cases htree
    | file found e _ hfound he =>
      refine ⟨(found, e) :: used, .cons hfound hlocate, ?_, ?_⟩
      · rw [List.flatMap_cons, hpaths]
        rfl
      · intro u hu
        rcases List.mem_cons.1 hu with rfl | hu
        · exact he
        · exact hchild u hu

private theorem exists_used_trees {directives : List Directive}
    {contributions : List Contribution} (hkind : ∀ d ∈ directives, d.kind = .requireTree)
    (h : List.Forall₂ (c.Contributes child directory) directives contributions) :
    ∃ used, (directives.flatMap fun d =>
        membersByName c.source (treeDirectory d.target directory)) = used.map Prod.fst ∧
      contributions.flatMap Contribution.dependencies = usedPaths used ∧
        ∀ u ∈ used, child u.1 u.2 := by
  induction h with
  | nil => exact ⟨[], rfl, rfl, by simp⟩
  | cons hdx _ ih =>
    obtain ⟨used, hmembers, hpaths, hchild⟩ := ih fun d hd => hkind d (List.mem_cons_of_mem _ hd)
    cases hdx with
    | file _ _ hfile _ _ =>
      rw [hkind _ List.mem_cons_self] at hfile
      cases hfile
    | tree members _ hforall =>
      obtain ⟨hfst, hmember⟩ := eq_map_fst_of_members hforall
      refine ⟨members ++ used, ?_, ?_, ?_⟩
      · rw [List.flatMap_cons, hmembers, hfst, List.map_append]
      · rw [List.flatMap_cons, hpaths, usedPaths, usedPaths, List.flatMap_append]
        rfl
      · intro u hu
        rcases List.mem_append.1 hu with hu | hu
        · exact hmember u hu
        · exact hchild u hu

/-- The dependencies of a result come from the children of the text, one after the other. -/
theorem Assembled.exists_used (h : c.Assembled child text directory e) :
    ∃ used, c.childrenIn directory text = some (used.map Prod.fst) ∧
      e.dependencies = Path.dedup (usedPaths used) ∧ ∀ u ∈ used, child u.1 u.2 := by
  obtain ⟨contributions, hcontributions, rfl⟩ := h
  obtain ⟨files, trees, hfiles, htrees, rfl⟩ := forall₂_append_left_iff.1 hcontributions
  obtain ⟨used₁, hlocate, hpaths₁, hchild₁⟩ :=
    exists_used_files (fun d hd => (mem_ofKind.1 hd).2) hfiles
  obtain ⟨used₂, hmembers, hpaths₂, hchild₂⟩ :=
    exists_used_trees (fun d hd => (mem_ofKind.1 hd).2) htrees
  refine ⟨used₁ ++ used₂, childrenIn_eq_some_iff.2 ⟨used₁.map Prod.fst, ?_, ?_⟩, ?_, ?_⟩
  · rw [List.forall₂_map_right_iff]
    exact hlocate
  · rw [hmembers, List.map_append]
  · rw [assemble, List.flatMap_append, hpaths₁, hpaths₂, usedPaths, usedPaths, usedPaths,
      List.flatMap_append]
  · intro u hu
    rcases List.mem_append.1 hu with hu | hu
    · exact hchild₁ u hu
    · exact hchild₂ u hu

end Used

/-! ## The order of the dependencies -/

private theorem keepsAlike_usedPaths {used : List (Path × Expanded)} {below : List InclusionTree}
    (h : List.Forall₂ (fun u tree => Path.KeepsAlike (u.1 :: u.2.dependencies) tree.preorder)
      used below) :
    Path.KeepsAlike (usedPaths used) (below.flatMap InclusionTree.preorder) := by
  induction h with
  | nil => exact .refl []
  | cons hu _ ih => exact hu.append ih

/-- The dependencies are the first occurrences in the tree below the file. -/
theorem exists_inclusionTree {depth : Nat} {p : Path} {e : Expanded}
    (h : c.fileOutcome depth flight p = .ok e) :
    ∃ below, c.inclusionTree p = some (.node p below) ∧
      e.dependencies = Path.dedup (below.flatMap InclusionTree.preorder) := by
  induction depth generalizing flight p e with
  | zero => exact absurd h fileOutcome_zero_ne_ok
  | succ depth ih =>
    obtain ⟨text, hread, _, hassembled⟩ := fileOutcome_eq_ok_iff.1 h
    obtain ⟨used, hchildren, hdependencies, hused⟩ := hassembled.exists_used
    have htree : ∀ u ∈ used, ∃ tree, c.inclusionTree u.1 = some tree ∧
        Path.KeepsAlike (u.1 :: u.2.dependencies) tree.preorder := by
      intro u hu
      obtain ⟨below, hbelow, hlist⟩ := ih (hused u hu)
      refine ⟨.node u.1 below, hbelow, ?_⟩
      rw [InclusionTree.preorder, hlist]
      exact (Path.keepsAlike_dedup _).cons u.1
    obtain ⟨trees, htrees⟩ := exists_forall₂ htree
    refine ⟨trees, inclusionTree_of_children hread hchildren ?_, ?_⟩
    · rw [List.forall₂_map_left_iff]
      exact htrees.imp fun u tree h => h.1
    · rw [hdependencies]
      exact (keepsAlike_usedPaths (htrees.imp fun u tree h => h.2)).dedup_eq

/-! ## Which files are dependencies -/

private theorem exists_dependency_of_mem {used : List (Path × Expanded)} {e : Expanded}
    (h : e.dependencies = Path.dedup (usedPaths used)) {q : Path} (hq : q ∈ usedPaths used) :
    ∃ d ∈ e.dependencies, d.normalize = q.normalize := by
  have hin := Path.isIn_dedup.2 (Path.isIn_of_mem hq)
  rw [← h] at hin
  obtain ⟨d, hd, hcomponents⟩ := Path.isIn_iff.1 hin
  exact ⟨d, hd, (Path.normalize_congr hcomponents).symm⟩

/-- The dependencies are the files that chains of inclusions lead to. -/
theorem transGen_includes_iff (hsource : c.source.Unchanging) {depth : Nat} {p : Path}
    {e : Expanded} (hp : c.source.read p.normalize = c.source.read p)
    (h : c.fileOutcome depth flight p = .ok e) {q : Path} :
    Relation.TransGen c.Includes p.normalize q ↔ ∃ d ∈ e.dependencies, d.normalize = q := by
  induction depth generalizing flight p e q with
  | zero => exact absurd h fileOutcome_zero_ne_ok
  | succ depth ih =>
    obtain ⟨text, hread, _, hassembled⟩ := fileOutcome_eq_ok_iff.1 h
    obtain ⟨used, hchildren, hdependencies, hused⟩ := hassembled.exists_used
    constructor
    · intro hq
      obtain ⟨next, hnext, hrest⟩ := Relation.TransGen.head'_iff.1 hq
      obtain ⟨text', hread', d, hd, r, hlead, rfl⟩ := hnext
      rw [hp, hread] at hread'
      cases hread'
      obtain ⟨u, hu, rfl⟩ := List.mem_map.1 ((mem_childrenIn hchildren).2 ⟨d, hd, hlead⟩)
      rcases Relation.reflTransGen_iff_eq_or_transGen.1 hrest with rfl | hrest
      · exact exists_dependency_of_mem hdependencies
          (List.mem_flatMap.2 ⟨u, hu, List.mem_cons_self⟩)
      · obtain ⟨d', hd', rfl⟩ := (ih (hsource.read_normalize hlead) (hused u hu)).1 hrest
        exact exists_dependency_of_mem hdependencies
          (List.mem_flatMap.2 ⟨u, hu, List.mem_cons_of_mem _ hd'⟩)
    · rintro ⟨d, hd, rfl⟩
      rw [hdependencies] at hd
      obtain ⟨u, hu, hmem⟩ := List.mem_flatMap.1 (Path.mem_of_mem_dedup hd)
      obtain ⟨d', hd', hlead⟩ := (mem_childrenIn hchildren).1 (List.mem_map.2 ⟨u, hu, rfl⟩)
      have hstep := includes_of_leadsTo hp hread hd' hlead
      rcases List.mem_cons.1 hmem with rfl | hmem
      · exact .single hstep
      · exact .head hstep ((ih (hsource.read_normalize hlead) (hused u hu)).2 ⟨d, hmem, rfl⟩)

theorem bundleFile_of_expandFile {p : Path} {e : Expanded} {s s' : Session}
    (h : c.expandFile p.normalize s = .ok e s') :
    c.bundleFile p s =
      .ok ⟨(Boundary.ofPath p.normalize).wrap e.content,
        Path.dedup (p.normalize :: e.dependencies)⟩ s' := by
  change EStateM.bind (c.expandFile p.normalize) _ s = _
  rw [EStateM.bind, h]
  rfl

/-- The dependencies of a file are the first occurrences in the order of its inclusion tree.  No
two of them are the same and none is the file itself.  They are the files that chains of
inclusions lead to.  The bundled file has the same list behind the file itself. -/
theorem expandFile_dependencies_eq_preorder (c : Catalog) (hsource : c.source.Unchanging)
    (p : Path) (hp : p.normalize = p) (e : Expanded) (s : Session)
    (h : c.expandFile p .start = .ok e s) :
    (∃ tree, c.inclusionTree p = some tree ∧
        e.dependencies = tree.preorder.tail.eraseDupsBy Path.same) ∧
      e.dependencies.Pairwise (fun d d' => d.same d' = false) ∧
      (∀ d ∈ e.dependencies, p.same d = false) ∧
      (∀ q, Relation.TransGen c.Includes p q ↔ ∃ d ∈ e.dependencies, d.normalize = q) ∧
      c.bundleFile p .start =
        .ok ⟨(Boundary.ofPath p.normalize).wrap e.content, p.normalize :: e.dependencies⟩ s := by
  have hread : c.source.read p.normalize = c.source.read p := by rw [hp]
  have houtcome := fileOutcome_of_expandFile h
  obtain ⟨below, htree, hlist⟩ := exists_inclusionTree houtcome
  have hpairwise : e.dependencies.Pairwise fun d d' => d.same d' = false := by
    rw [hlist]
    exact Path.pairwise_dedup _
  have hincluded : ∀ q, Relation.TransGen c.Includes p q ↔
      ∃ d ∈ e.dependencies, d.normalize = q := by
    intro q
    have hiff := transGen_includes_iff hsource hread houtcome (q := q)
    rw [hp] at hiff
    exact hiff
  have hself : ∀ d ∈ e.dependencies, p.same d = false := by
    intro d hd
    rw [Bool.eq_false_iff, ne_eq, Path.same_iff]
    intro hsame
    have hnormal : d.normalize = p := by rw [← Path.normalize_congr hsame, hp]
    have hfree := acyclic_of_fileOutcome_eq_ok hsource hread houtcome .refl
    rw [hp] at hfree
    exact hfree.2 ((hincluded p).2 ⟨d, hd, hnormal⟩)
  refine ⟨⟨_, htree, ?_⟩, hpairwise, hself, hincluded, ?_⟩
  · rw [hlist, Path.dedup_eq_eraseDupsBy, InclusionTree.preorder]
    rfl
  · have hbundle := bundleFile_of_expandFile (p := p) (by rw [hp]; exact h)
    rw [hbundle, Path.dedup_eq_self (List.pairwise_cons.2 ⟨?_, hpairwise⟩)]
    rw [hp]
    exact hself

/-! ### A file that is included twice -/

/-- The file that asks for the left and the right one. -/
def diamondTop : Path := ⟨"a.scss".toList⟩

/-- The file that is asked for first. -/
def diamondLeft : Path := ⟨"b.scss".toList⟩

/-- The file that is asked for next. -/
def diamondRight : Path := ⟨"c.scss".toList⟩

/-- The file that both of them ask for. -/
def diamondBottom : Path := ⟨"d.scss".toList⟩

/-- Two files include a third one, and a fourth file includes both. -/
def diamond : Catalog where
  settings :=
    { root := ⟨"/".toList⟩, includePaths := [], fallbackDirs := [], aliases := [], mappings := [],
      ignorePartials := false }
  source :=
    ((((Memory.empty.addFile diamondTop "//= require 'b'\n//= require 'c'".toList).addFile
      diamondLeft "//= require 'd'".toList).addFile diamondRight "//= require 'd'".toList).addFile
        diamondBottom []).source

private theorem diamond_bottom {depth : Nat} {flight : InFlight}
    (h : flight.contains diamondBottom.normalize = false) :
    diamond.fileOutcome (depth + 1) flight diamondBottom = .ok ⟨[], []⟩ :=
  fileOutcome_eq_ok_iff.2 ⟨[], rfl, h, assembled_of_parse_eq_nil rfl⟩

private theorem diamond_side {depth : Nat} {flight : InFlight} {p : Path}
    (hread : diamond.source.read p = .ok "//= require 'd'".toList)
    (hdirectory : p.normalize.directory = .empty) (hp : flight.contains p.normalize = false)
    (hbottom : (entered flight p).contains diamondBottom.normalize = false) :
    diamond.fileOutcome (depth + 2) flight p = .ok ⟨[], [diamondBottom]⟩ := by
  have hparse : Directive.parse "//= require 'd'".toList =
      [⟨.require, "d".toList, "//= require 'd'".toList, 0⟩] := by decide
  refine fileOutcome_eq_ok_iff.2 ⟨_, hread, hp, assembled_of_parse_eq_singleton hparse
    (.file diamondBottom ⟨[], []⟩ rfl ?_ (diamond_bottom hbottom)) ?_ ?_⟩
  · rw [hdirectory]
    rfl
  · decide
  · decide

private theorem diamond_expandFile :
    ∃ s, diamond.expandFile diamondTop .start =
      .ok ⟨['\n'], [diamondLeft, diamondBottom, diamondRight]⟩ s := by
  have hdirectives : inTwoPasses (Directive.parse "//= require 'b'\n//= require 'c'".toList) =
      [⟨.require, "b".toList, "//= require 'b'".toList, 0⟩,
        ⟨.require, "c".toList, "//= require 'c'".toList, 16⟩] := by decide
  apply exists_expandFile_of_fileOutcome
  refine fileOutcome_eq_ok_iff.2 ⟨_, rfl, rfl,
    [⟨⟨0, 15, []⟩, [diamondLeft, diamondBottom]⟩, ⟨⟨16, 31, []⟩, [diamondRight, diamondBottom]⟩],
    ?_, ?_⟩
  · rw [hdirectives]
    refine .cons (.file diamondLeft ⟨[], [diamondBottom]⟩ rfl rfl ?_)
      (.cons (.file diamondRight ⟨[], [diamondBottom]⟩ rfl rfl ?_) .nil)
    · exact diamond_side rfl (by decide) (by decide) (by decide)
    · exact diamond_side rfl (by decide) (by decide) (by decide)
  · have hsorted := Replacement.sorted_eq (List.Perm.refl [⟨0, 15, []⟩, ⟨16, 31, []⟩]) (by decide)
    rw [assemble, List.map_cons, List.map_singleton, hsorted]
    decide

theorem diamond_dependencies :
    diamond.source.Unchanging ∧ diamondTop.normalize = diamondTop ∧
      ∃ e s tree, diamond.expandFile diamondTop .start = .ok e s ∧
        diamond.inclusionTree diamondTop = some tree ∧
        e.dependencies = [diamondLeft, diamondBottom, diamondRight] ∧
        e.dependencies = tree.preorder.tail.eraseDupsBy Path.same := by
  have hsource : diamond.source.Unchanging := .memory _
  have hnormal : diamondTop.normalize = diamondTop := by decide
  obtain ⟨s, h⟩ := diamond_expandFile
  obtain ⟨⟨tree, htree, hlist⟩, _⟩ :=
    expandFile_dependencies_eq_preorder diamond hsource diamondTop hnormal _ s h
  exact ⟨hsource, hnormal, _, s, tree, h, htree, rfl, hlist⟩

end Catalog

end StyleBundle

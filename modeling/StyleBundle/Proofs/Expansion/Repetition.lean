import StyleBundle.Proofs.Expansion.Dependencies
import StyleBundle.Proofs.Expansion.Request
import StyleBundle.Proofs.Steps
import StyleBundle.Source.Memory

/-!
# Repeated dependencies

Which files go into an expansion, and whether one of them is listed twice.

`Catalog.AsksFor` is the step from a file to another one, under the path that was looked up or
listed, and `Catalog.Uses` is a chain of such steps.  The dependencies of a file are the files
that it uses (`Catalog.isIn_cons_dependencies_iff`), and they are never the file itself, which is
in flight meanwhile (`Catalog.isIn_dependencies_self`).

A text, a file and a bundled file have their dependencies cut down to first occurrences.  For the
stylesheets of a directory the lists of the members are put one behind the other and stay as they
are.  So a file is listed twice exactly when two members use it (`Request.distinct_iff_apart`).
-/

namespace StyleBundle

namespace Catalog

open Expansion

variable {c : Catalog} {flight : InFlight}

/-! ## Used files -/

/-- A directive in the text of the file `p` leads to `q`, under this path. -/
def AsksFor (c : Catalog) (p q : Path) : Prop :=
  ∃ text, c.source.read p = .ok text ∧
    ∃ d ∈ Directive.parse text, c.LeadsTo p.normalize.directory d q

/-- A chain of files that ask for one another leads from `p` to `q`.  Every file uses itself. -/
def Uses (c : Catalog) (p q : Path) : Prop :=
  Relation.ReflTransGen c.AsksFor p q

/-- The dependencies of a text are the files that are used by those that its directives lead to,
if this is so for these files. -/
theorem Assembled.isIn_dependencies_iff {child : Path → Expanded → Prop} {directory : Path}
    {text : Text} {e : Expanded} (h : c.Assembled child text directory e)
    (hchild : ∀ r e', child r e' → ∀ q : Path,
      q.isIn (r :: e'.dependencies) = true ↔ ∃ u, c.Uses r u ∧ q.components = u.components)
        (q : Path) :
    q.isIn e.dependencies = true ↔ ∃ d ∈ Directive.parse text, ∃ r, c.LeadsTo directory d r ∧
      ∃ u, c.Uses r u ∧ q.components = u.components := by
  obtain ⟨used, hchildren, hdependencies, hused⟩ := h.exists_used
  rw [hdependencies, Path.isIn_dedup, Path.isIn_iff]
  constructor
  · rintro ⟨x, hx, hq⟩
    obtain ⟨file, hfile, hmem⟩ := List.mem_flatMap.1 hx
    obtain ⟨d, hd, hlead⟩ := (mem_childrenIn hchildren).1 (List.mem_map_of_mem hfile)
    exact ⟨d, hd, file.1, hlead,
      (hchild _ _ (hused file hfile) q).1 (Path.isIn_iff.2 ⟨x, hmem, hq⟩)⟩
  · rintro ⟨d, hd, r, hlead, hu⟩
    obtain ⟨file, hfile, rfl⟩ := List.mem_map.1 ((mem_childrenIn hchildren).2 ⟨d, hd, hlead⟩)
    obtain ⟨x, hx, hq⟩ := Path.isIn_iff.1 ((hchild _ _ (hused file hfile) q).2 hu)
    exact ⟨x, List.mem_flatMap.2 ⟨file, hfile, hx⟩, hq⟩

/-- A file and its dependencies are the files that it uses. -/
theorem isIn_cons_dependencies_iff {depth : Nat} {p : Path} {e : Expanded}
    (h : c.fileOutcome depth flight p = .ok e) (q : Path) :
    q.isIn (p :: e.dependencies) = true ↔ ∃ u, c.Uses p u ∧ q.components = u.components := by
  induction depth generalizing flight p e q with
  | zero => exact absurd h fileOutcome_zero_ne_ok
  | succ depth ih =>
    obtain ⟨text, hread, _, hassembled⟩ := fileOutcome_eq_ok_iff.1 h
    rw [Path.isIn_cons, hassembled.isIn_dependencies_iff fun r e' hr => ih hr]
    constructor
    · rintro (hq | ⟨d, hd, r, hlead, u, hu, hq⟩)
      · exact ⟨p, .refl, hq⟩
      · exact ⟨u, .head ⟨text, hread, d, hd, hlead⟩ hu, hq⟩
    · rintro ⟨u, hu, hq⟩
      rcases Relation.ReflTransGen.cases_head hu with
        rfl | ⟨r, ⟨text', hread', d, hd, hlead⟩, hrest⟩
      · exact .inl hq
      · rw [hread] at hread'
        cases hread'
        exact .inr ⟨d, hd, r, hlead, u, hrest, hq⟩

/-- The dependencies of a text are the files that are used by those that its directives lead
to. -/
theorem isIn_dependencies_of_outcome {depth : Nat} {text : Text} {p : Path} {e : Expanded}
    (h : outcome (c.expandWithin depth text p) flight = .ok e) (q : Path) :
    q.isIn e.dependencies = true ↔ ∃ d ∈ Directive.parse text, ∃ r,
      c.LeadsTo p.normalize.directory d r ∧ ∃ u, c.Uses r u ∧ q.components = u.components := by
  cases depth with
  | zero => exact absurd h outcome_expandWithin_zero_ne_ok
  | succ depth =>
    obtain ⟨_, hassembled⟩ := outcome_expandWithin_eq_ok_iff.1 h
    exact hassembled.isIn_dependencies_iff (fun r e' hr => isIn_cons_dependencies_iff hr) q

/-! ## A file is no dependency of itself -/

/-- No file that is used is in flight. -/
theorem contains_eq_false_of_uses {depth : Nat} {p u : Path} {e : Expanded}
    (h : c.fileOutcome depth flight p = .ok e) (hu : c.Uses p u) :
    flight.contains u.normalize = false := by
  induction depth generalizing flight p e with
  | zero => exact absurd h fileOutcome_zero_ne_ok
  | succ depth ih =>
    obtain ⟨text, hread, hcontains, hassembled⟩ := fileOutcome_eq_ok_iff.1 h
    rcases Relation.ReflTransGen.cases_head hu with
      rfl | ⟨r, ⟨text', hread', d, hd, hlead⟩, hrest⟩
    · exact hcontains
    · rw [hread] at hread'
      cases hread'
      obtain ⟨e', he'⟩ := hassembled.exists_child hd hlead
      -- More is in flight while the files below are expanded.
      have hbelow := ih he' hrest
      rw [Bool.eq_false_iff, ne_eq, InFlight.contains_iff] at hbelow ⊢
      rintro ⟨q, hq, hsame⟩
      exact hbelow ⟨q, List.mem_cons_of_mem _ hq, hsame⟩

theorem isIn_dependencies_self {depth : Nat} {p : Path} {e : Expanded}
    (h : c.fileOutcome depth flight p = .ok e) : p.isIn e.dependencies = false := by
  cases depth with
  | zero => exact absurd h fileOutcome_zero_ne_ok
  | succ depth =>
    obtain ⟨text, hread, _, hassembled⟩ := fileOutcome_eq_ok_iff.1 h
    rw [Bool.eq_false_iff, ne_eq, hassembled.isIn_dependencies_iff fun r e' =>
      isIn_cons_dependencies_iff]
    rintro ⟨d, hd, r, hlead, u, hu, hp⟩
    obtain ⟨e', he'⟩ := hassembled.exists_child hd hlead
    have hfree := contains_eq_false_of_uses he' hu
    have hflight : (entered flight p).contains u.normalize = true := by
      rw [← Path.normalize_congr hp]
      exact InFlight.contains_iff.2 ⟨p.normalize, List.mem_cons_self, rfl⟩
    rw [hfree] at hflight
    cases hflight

/-! ## Lists without repetitions -/

theorem pairwise_dependencies_of_outcome {depth : Nat} {text : Text} {p : Path} {e : Expanded}
    (h : outcome (c.expandWithin depth text p) flight = .ok e) :
    e.dependencies.Pairwise fun d d' => d.same d' = false := by
  cases depth with
  | zero => exact absurd h outcome_expandWithin_zero_ne_ok
  | succ depth =>
    obtain ⟨_, contributions, _, rfl⟩ := outcome_expandWithin_eq_ok_iff.1 h
    exact Path.pairwise_dedup _

theorem pairwise_cons_dependencies {depth : Nat} {p : Path} {e : Expanded}
    (h : c.fileOutcome depth flight p = .ok e) :
    (p :: e.dependencies).Pairwise fun d d' => d.same d' = false := by
  obtain ⟨text, _, htext⟩ := fileOutcome_eq_ok_iff_expandWithin.1 h
  refine List.pairwise_cons.2 ⟨fun d hd => ?_, pairwise_dependencies_of_outcome htext⟩
  have hself := isIn_dependencies_self h
  rw [Bool.eq_false_iff, ne_eq, Path.isIn_iff] at hself
  rw [Bool.eq_false_iff, ne_eq, Path.same_iff]
  exact fun hsame => hself ⟨d, hd, hsame⟩

/-- Nothing is the same in the lists of two files exactly when they use no file in common. -/
theorem forall_same_eq_false_iff {depth : Nat} {p p' : Path} {e e' : Expanded}
    (h : c.fileOutcome depth flight p = .ok e) (h' : c.fileOutcome depth flight p' = .ok e') :
    (∀ q ∈ p :: e.dependencies, ∀ q' ∈ p' :: e'.dependencies, q.same q' = false) ↔
      ∀ u u', c.Uses p u → c.Uses p' u' → u.same u' = false := by
  simp only [Bool.eq_false_iff, ne_eq, Path.same_iff]
  constructor
  · intro hlists u u' hu hu' hsame
    obtain ⟨q, hq, huq⟩ := Path.isIn_iff.1 ((isIn_cons_dependencies_iff h u).2 ⟨u, hu, rfl⟩)
    obtain ⟨q', hq', huq'⟩ :=
      Path.isIn_iff.1 ((isIn_cons_dependencies_iff h' u').2 ⟨u', hu', rfl⟩)
    exact hlists q hq q' hq' (huq.symm.trans (hsame.trans huq'))
  · intro huses q hq q' hq' hsame
    obtain ⟨u, hu, hqu⟩ := (isIn_cons_dependencies_iff h q).1 (Path.isIn_of_mem hq)
    obtain ⟨u', hu', hqu'⟩ := (isIn_cons_dependencies_iff h' q').1 (Path.isIn_of_mem hq')
    exact huses u u' hu hu' (hqu.symm.trans (hsame.trans hqu'))

end Catalog

namespace Request

open Catalog Expansion

variable {c : Catalog}

/-- No file is used by two members of the tree that is asked for.  All other requests are free of
this condition. -/
def Apart (c : Catalog) : Request → Prop
  | tree t directory => (membersByName c.source (treeDirectory t directory)).Pairwise fun m m' =>
      ∀ u u', c.Uses m u → c.Uses m' u' → u.same u' = false
  | text _ _ => True
  | file _ => True
  | bundle _ => True

/-- The answer to a request lists no dependency twice, except that the members of a tree may use
the same file. -/
theorem distinct_iff_apart (c : Catalog) (r : Request) (s s' : Session) (e : Expanded)
    (h : r.run c s = .ok e s') :
    e.dependencies.Pairwise (fun d d' => d.same d' = false) ↔ r.Apart c := by
  have houtcome := (framed_run c r).outcome_of_ok h
  cases r with
  | text t p => exact iff_of_true (pairwise_dependencies_of_outcome houtcome) trivial
  | file p =>
    have hfile : c.fileOutcome c.depth s.inFlight p = .ok e := houtcome
    exact iff_of_true (List.pairwise_cons.1 (pairwise_cons_dependencies hfile)).2 trivial
  | bundle p =>
    obtain ⟨expanded, _, _, hresult⟩ := exists_of_bind_ok h
    cases hresult
    exact iff_of_true (Path.pairwise_dedup _) trivial
  | tree t directory =>
    have hframed := framed_expandRead (c := c) (framed_expandWithin c c.depth)
    obtain ⟨members, hmembers, rfl⟩ := (outcome_expandTreeWith_eq_ok_iff hframed).1 houtcome
    obtain ⟨hpaths, hchild⟩ :=
      @eq_map_fst_of_members (fun p e => c.fileOutcome c.depth s.inFlight p = .ok e) _ _ hmembers
    rw [Apart, hpaths, List.pairwise_map, joinMembers, List.pairwise_flatMap,
      and_iff_right fun m hm => pairwise_cons_dependencies (hchild m hm)]
    exact List.Pairwise.iff_of_mem fun hm hm' =>
      forall_same_eq_false_iff (hchild _ hm) (hchild _ hm')

/-! ### A directory whose members ask for one file, and one whose members do not -/

/-- The file that is asked for. -/
def commonFile : Path := ⟨"/app/x.scss".toList⟩

/-- The text that asks for it. -/
def commonText : Text := "//= require '../x.scss'".toList

/-- In the first directory both stylesheets ask for the file, in the second one only one does. -/
def common : Catalog where
  settings :=
    { root := ⟨"/app".toList⟩, includePaths := [], fallbackDirs := [], aliases := [],
      mappings := [], ignorePartials := false }
  source :=
    ((((Memory.empty.addFile commonFile []).addFile ⟨"/app/t/a.scss".toList⟩ commonText).addFile
      ⟨"/app/t/b.scss".toList⟩ commonText).addFile ⟨"/app/u/c.scss".toList⟩ commonText).addFile
        ⟨"/app/u/d.scss".toList⟩ [] |>.source

private theorem common_leaf {depth : Nat} {flight : InFlight} {p : Path}
    (hread : common.source.read p = .ok []) (h : flight.contains p.normalize = false) :
    common.fileOutcome (depth + 1) flight p = .ok ⟨[], []⟩ :=
  fileOutcome_eq_ok_iff.2 ⟨_, hread, h, assembled_of_parse_eq_nil rfl⟩

private theorem common_member {p : Path} (hread : common.source.read p = .ok commonText)
    (hlocate : common.locate "../x.scss".toList p.normalize.directory = .ok commonFile)
    (hother : (entered .empty p).contains commonFile.normalize = false) :
    common.fileOutcome common.depth .empty p = .ok ⟨[], [commonFile]⟩ := by
  have hparse : Directive.parse commonText = [⟨.require, "../x.scss".toList, commonText, 0⟩] := by
    decide
  refine fileOutcome_eq_ok_iff.2 ⟨_, hread, rfl, assembled_of_parse_eq_singleton hparse
    (.file commonFile ⟨[], []⟩ rfl hlocate (common_leaf rfl hother)) ?_ ?_⟩
  · decide
  · decide

private theorem common_tree {t : Text} {members : List (Path × Expanded)}
    (h : List.Forall₂ (fun p m => m.1 = p ∧ common.fileOutcome common.depth .empty p = .ok m.2)
      (membersByName common.source (treeDirectory t ⟨"/app".toList⟩)) members) :
    ∃ s, (Request.tree t ⟨"/app".toList⟩).run common .start = .ok (joinMembers members) s := by
  have hframed := framed_expandRead (c := common) (framed_expandWithin common common.depth)
  apply (framed_run common (.tree t ⟨"/app".toList⟩)).exists_ok
  exact (outcome_expandTreeWith_eq_ok_iff hframed).2 ⟨members, h, rfl⟩

/-- Two members, one of them with a dependency. -/
def commonApart : Expanded :=
  joinMembers [(⟨"/app/u/c.scss".toList⟩, ⟨[], [commonFile]⟩),
    (⟨"/app/u/d.scss".toList⟩, ⟨[], []⟩)]

theorem common_apart :
    (∃ s, (Request.tree "u".toList ⟨"/app".toList⟩).run common .start = .ok commonApart s) ∧
      (Request.tree "u".toList ⟨"/app".toList⟩).Apart common := by
  have hmembers : membersByName common.source (treeDirectory "u".toList ⟨"/app".toList⟩) =
      [⟨"/app/u/c.scss".toList⟩, ⟨"/app/u/d.scss".toList⟩] := by decide
  obtain ⟨s, hrun⟩ : ∃ s, (Request.tree "u".toList ⟨"/app".toList⟩).run common .start =
      .ok commonApart s := by
    apply common_tree
    rw [hmembers]
    exact .cons ⟨rfl, common_member rfl rfl rfl⟩ (.cons ⟨rfl, common_leaf rfl rfl⟩ .nil)
  exact ⟨⟨s, hrun⟩, (distinct_iff_apart common _ .start s commonApart hrun).1 (by decide)⟩

/-- Two members with the same dependency. -/
def commonTwice : Expanded :=
  joinMembers [(⟨"/app/t/a.scss".toList⟩, ⟨[], [commonFile]⟩),
    (⟨"/app/t/b.scss".toList⟩, ⟨[], [commonFile]⟩)]

theorem common_repeated :
    (∃ s, (Request.tree "t".toList ⟨"/app".toList⟩).run common .start = .ok commonTwice s) ∧
      commonTwice.dependencies =
        [⟨"/app/t/a.scss".toList⟩, commonFile, ⟨"/app/t/b.scss".toList⟩, commonFile] ∧
      ¬ commonTwice.dependencies.Pairwise fun d d' => d.same d' = false := by
  have hmembers : membersByName common.source (treeDirectory "t".toList ⟨"/app".toList⟩) =
      [⟨"/app/t/a.scss".toList⟩, ⟨"/app/t/b.scss".toList⟩] := by decide
  refine ⟨common_tree ?_, rfl, by decide⟩
  rw [hmembers]
  exact .cons ⟨rfl, common_member rfl rfl rfl⟩ (.cons ⟨rfl, common_member rfl rfl rfl⟩ .nil)

end Request

end StyleBundle

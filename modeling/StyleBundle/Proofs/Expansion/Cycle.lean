import StyleBundle.Proofs.Expansion.Depth
import StyleBundle.Proofs.Source.Disk

/-!
# Cycles are found, and nothing else is called a cycle

The inclusion graph is never built.  It is walked by a recursion that keeps the files of the
current chain in flight, and a file that is met while it is in flight is reported as circular.

Three inductions on the depth relate the paths in flight to the graph.

* A file that expands reaches nothing that is in flight, and nothing that lies on a cycle
  (`Catalog.acyclic_of_fileOutcome_eq_ok`).
* A path that is reported as circular is reached from the file.  It was in flight before, or it
  lies on a cycle (`Catalog.reaches_of_fileOutcome_circular`).
* Where everything that is asked for is there, nothing else can fail
  (`Catalog.circular_of_fileOutcome_eq_error`).

The nodes of the graph are normal paths, but a file is read by the path that a directive led to.
In an unchanging source both have one text (`Source.Unchanging.read_normalize`).
-/

namespace StyleBundle

namespace Catalog

open Expansion

variable {c : Catalog} {flight : InFlight}

/-! ## Normal nodes -/

theorem Includes.normalize_eq {p q : Path} (h : c.Includes p q) : q.normalize = q := by
  obtain ⟨_, _, _, _, r, _, rfl⟩ := h
  exact Path.normalize_normalize r

theorem Reaches.normalize_eq {p q : Path} (h : c.Reaches p q) (hp : p.normalize = p) :
    q.normalize = q := by
  rcases Relation.ReflTransGen.cases_tail h with rfl | ⟨_, _, hlast⟩
  · exact hp
  · exact hlast.normalize_eq

/-- A directive in the text of a file leads along an edge of the graph. -/
theorem includes_of_leadsTo {p r : Path} {text : Text} {d : Directive}
    (hp : c.source.read p.normalize = c.source.read p) (hread : c.source.read p = .ok text)
    (hd : d ∈ Directive.parse text) (hr : c.LeadsTo p.normalize.directory d r) :
    c.Includes p.normalize r.normalize :=
  Includes.intro (hp.trans hread) hd hr rfl

/-! ## Success -/

theorem acyclic_of_fileOutcome_eq_ok (hsource : c.source.Unchanging) {depth : Nat} {p : Path}
    {e : Expanded} (hp : c.source.read p.normalize = c.source.read p)
    (h : c.fileOutcome depth flight p = .ok e) {q : Path} (hq : c.Reaches p.normalize q) :
    flight.contains q = false ∧ ¬ c.OnCycle q := by
  induction depth generalizing flight p e q with
  | zero => exact absurd h fileOutcome_zero_ne_ok
  | succ depth ih =>
    obtain ⟨text, hread, hcontains, hassembled⟩ := fileOutcome_eq_ok_iff.1 h
    -- Behind the first edge, the file itself is in flight as well.
    have hbehind : ∀ next q, c.Includes p.normalize next → c.Reaches next q →
        (entered flight p).contains q = false ∧ ¬ c.OnCycle q := by
      intro next q hnext hq
      obtain ⟨text', hread', d, hd, r, hlead, rfl⟩ := hnext
      rw [hp, hread] at hread'
      cases hread'
      obtain ⟨e', hchild⟩ := hassembled.exists_child hd hlead
      exact ih (hsource.read_normalize hlead) hchild hq
    rcases Relation.ReflTransGen.cases_head hq with rfl | ⟨next, hnext, hrest⟩
    · refine ⟨hcontains, fun hcycle => ?_⟩
      obtain ⟨next, hnext, hback⟩ := Relation.TransGen.head'_iff.1 hcycle
      have hfree := (hbehind next _ hnext hback).1
      rw [contains_entered.2 (.inl rfl)] at hfree
      cases hfree
    · obtain ⟨hfree, hacyclic⟩ := hbehind next q hnext hrest
      refine ⟨?_, hacyclic⟩
      rw [← Bool.not_eq_true] at hfree ⊢
      exact fun hin => hfree (contains_entered.2 (.inr hin))

/-! ## Failure -/

theorem reaches_of_fileOutcome_circular (hsource : c.source.Unchanging) {depth n : Nat}
    {p q : Path} (hroom : Room c.source flight n) (hdepth : n < depth)
    (hp : c.source.read p.normalize = c.source.read p)
    (h : c.fileOutcome depth flight p = .error (.circular q)) :
    c.Reaches p.normalize q ∧ (flight.contains q = true ∨ c.OnCycle q) := by
  induction depth generalizing n flight p with
  | zero => omega
  | succ depth ih =>
    cases fails_of_fileOutcome h with
    | circular text _ hcontains => exact ⟨.refl, .inl hcontains⟩
    | child text d r _ hread hcontains hd hlead hchild =>
      obtain ⟨below, rfl, hbelow⟩ := hroom.enter hread hcontains
      have hstep := includes_of_leadsTo hp hread hd hlead
      obtain ⟨hreaches, hq⟩ := ih hbelow (by omega) (hsource.read_normalize hlead) hchild
      refine ⟨.head hstep hreaches, ?_⟩
      rcases hq with hin | hcycle
      · rcases contains_entered.1 hin with hsame | hin
        · -- The chain has come back to the file itself, which closes a cycle.
          have hqp : q = p.normalize :=
            Path.eq_of_same_normalize (hreaches.normalize_eq (Path.normalize_normalize r))
              (Path.normalize_normalize p) (Path.same_iff.2 hsame)
          subst hqp
          exact .inr (.head' hstep hreaches)
        · exact .inl hin
      · exact .inr hcycle

/-- The file can be read, and all its `require` directives lead somewhere. -/
def Resolvable (c : Catalog) (p : Path) : Prop :=
  ∃ text, c.source.read p = .ok text ∧
    ∀ d ∈ Directive.parse text, d.kind = .require → ∃ q, c.locate d.target p.directory = .ok q

theorem circular_of_fileOutcome_eq_error (hsource : c.source.Unchanging) {depth n : Nat}
    {p : Path} {cause : ResolveError} (hroom : Room c.source flight n) (hdepth : n < depth)
    (hp : c.source.read p.normalize = c.source.read p)
    (hall : ∀ q, c.Reaches p.normalize q → c.Resolvable q)
    (h : c.fileOutcome depth flight p = .error cause) : ∃ q, cause = .circular q := by
  induction depth generalizing n flight p with
  | zero => omega
  | succ depth ih =>
    obtain ⟨text, hread, hfound⟩ := hall p.normalize .refl
    rw [hp] at hread
    cases fails_of_fileOutcome h with
    | unreadable failure hfailure =>
      rw [hread] at hfailure
      cases hfailure
    | circular _ _ _ => exact ⟨_, rfl⟩
    | notFound text' d hread' hd hkind hlocate =>
      rw [hread] at hread'
      cases hread'
      obtain ⟨q, hq⟩ := hfound d hd hkind
      rw [hq] at hlocate
      cases hlocate
    | child text' d r _ hread' hcontains hd hlead hchild =>
      obtain ⟨below, rfl, hbelow⟩ := hroom.enter hread' hcontains
      have hstep := includes_of_leadsTo hp hread' hd hlead
      exact ih hbelow (by omega) (hsource.read_normalize hlead)
        (fun q hq => hall q (.head hstep hq)) hchild

/-! ## Expanding a file from the start -/

/-- Expansion finds cycles and calls nothing else a cycle.  A file that expands reaches no cycle.
A path that is reported as circular is reached and lies on a cycle.  Where all files that are
reached can be read and find what they require, exactly the files that reach a cycle are
circular. -/
theorem expandFile_circular_iff_reaches_cycle (c : Catalog) (hsource : c.source.Unchanging)
    (p : Path) (hp : p.normalize = p) :
    (∀ e s, c.expandFile p .start = .ok e s → ∀ q, c.Reaches p q → ¬ c.OnCycle q) ∧
      (∀ q s, c.expandFile p .start = .error (.circular q) s → c.Reaches p q ∧ c.OnCycle q) ∧
      ((∀ q, c.Reaches p q → c.Resolvable q) →
        ((∃ q s, c.expandFile p .start = .error (.circular q) s) ↔
          ∃ q, c.Reaches p q ∧ c.OnCycle q)) := by
  have hroom := room_empty hsource.lawful
  have hdepth : c.source.chainLimit < c.depth := Nat.lt_succ_self _
  have hread : c.source.read p.normalize = c.source.read p := by rw [hp]
  have hok : ∀ e s, c.expandFile p .start = .ok e s → ∀ q, c.Reaches p q → ¬ c.OnCycle q := by
    intro e s h q hq
    rw [← hp] at hq
    exact (acyclic_of_fileOutcome_eq_ok hsource hread (fileOutcome_of_expandFile h) hq).2
  have hcircular : ∀ q s, c.expandFile p .start = .error (.circular q) s →
      c.Reaches p q ∧ c.OnCycle q := by
    intro q s h
    have hq := reaches_of_fileOutcome_circular hsource hroom hdepth hread
      (fileOutcome_of_expandFile_error h)
    rw [hp] at hq
    exact ⟨hq.1, hq.2.resolve_left (by simp [InFlight.contains, InFlight.empty, Path.isIn])⟩
  refine ⟨hok, hcircular, fun hall => ⟨?_, ?_⟩⟩
  · rintro ⟨q, s, h⟩
    exact ⟨q, hcircular q s h⟩
  · rintro ⟨q, hq, hcycle⟩
    cases h : c.expandFile p .start with
    | ok e s => exact absurd hcycle (hok e s h q hq)
    | error cause s =>
      obtain ⟨q', rfl⟩ := circular_of_fileOutcome_eq_error hsource hroom hdepth hread
        (by rw [hp]; exact hall) (fileOutcome_of_expandFile_error h)
      exact ⟨q', s, rfl⟩

/-! ### A cycle through a directory -/

/-- The file that asks for the other one. -/
def loopFirst : Path := ⟨"/w/a.scss".toList⟩

/-- The file that asks for the directory of both. -/
def loopSecond : Path := ⟨"/w/b.scss".toList⟩

/-- Two files in one directory.  The first asks for the second twice, and the second asks for the
whole directory. -/
def loop : Catalog where
  settings :=
    { root := ⟨"/w".toList⟩, includePaths := [], fallbackDirs := [], aliases := [],
      mappings := [], ignorePartials := false }
  source :=
    ((Memory.empty.addFile loopFirst "//= require 'b'\n//= require 'b'".toList).addFile loopSecond
      "//= require_tree '.'".toList).source

private theorem loop_includes_of_first {q : Path} (h : loop.Includes loopFirst q) :
    q = loopSecond := by
  obtain ⟨text, hread, d, hd, r, hlead, rfl⟩ := h
  cases hread
  have hdirectives : ∀ d ∈ Directive.parse "//= require 'b'\n//= require 'b'".toList,
      d.kind = .require ∧ d.target = "b".toList := by decide
  obtain ⟨hkind, htarget⟩ := hdirectives d hd
  rw [leadsTo_require hkind, htarget] at hlead
  cases hlead
  decide

private theorem loop_includes_of_second {q : Path} (h : loop.Includes loopSecond q) :
    q = loopFirst ∨ q = loopSecond := by
  obtain ⟨text, hread, d, hd, r, hlead, rfl⟩ := h
  cases hread
  have hdirectives : ∀ d ∈ Directive.parse "//= require_tree '.'".toList,
      d.kind = .requireTree ∧ d.target = ".".toList := by decide
  have hmembers : ∀ r ∈ stylesheetsIn loop.source (treeDirectory ".".toList loopSecond.directory),
      r.normalize = loopFirst ∨ r.normalize = loopSecond := by decide
  obtain ⟨hkind, htarget⟩ := hdirectives d hd
  rw [leadsTo_requireTree hkind, htarget] at hlead
  exact hmembers r hlead

private theorem loop_reaches {q : Path} (h : loop.Reaches loopFirst q) :
    q = loopFirst ∨ q = loopSecond := by
  induction h with
  | refl => exact .inl rfl
  | tail _ hstep ih =>
    rcases ih with rfl | rfl
    · exact .inr (loop_includes_of_first hstep)
    · exact loop_includes_of_second hstep

private theorem loop_resolvable {q : Path} (h : loop.Reaches loopFirst q) :
    loop.Resolvable q := by
  rcases loop_reaches h with rfl | rfl
  · refine ⟨_, rfl, fun d hd _ => ⟨loopSecond, ?_⟩⟩
    have htarget : ∀ d ∈ Directive.parse "//= require 'b'\n//= require 'b'".toList,
        d.target = "b".toList := by decide
    rw [htarget d hd]
    rfl
  · refine ⟨_, rfl, fun d hd hkind => ?_⟩
    have hnone : ∀ d ∈ Directive.parse "//= require_tree '.'".toList,
        d.kind ≠ .require := by decide
    exact absurd hkind (hnone d hd)

private theorem loop_onCycle : loop.OnCycle loopSecond := by
  refine .single ⟨_, rfl, ⟨.requireTree, ".".toList, "//= require_tree '.'".toList, 0⟩, by decide,
    loopSecond, ?_, by decide⟩
  have hmember : loopSecond ∈
      stylesheetsIn loop.source (treeDirectory ".".toList loopSecond.directory) := by
    decide
  exact hmember

private theorem loop_first_includes : loop.Includes loopFirst loopSecond :=
  ⟨_, rfl, ⟨.require, "b".toList, "//= require 'b'".toList, 0⟩, by decide, loopSecond, rfl,
    by decide⟩

theorem loop_circular :
    loop.source.Unchanging ∧ loopFirst.normalize = loopFirst ∧
      (∀ q, loop.Reaches loopFirst q → loop.Resolvable q) ∧
      ∃ q s, loop.expandFile loopFirst .start = .error (.circular q) s := by
  have hsource : loop.source.Unchanging := .memory _
  have hnormal : loopFirst.normalize = loopFirst := by decide
  have hall : ∀ q, loop.Reaches loopFirst q → loop.Resolvable q := fun q hq => loop_resolvable hq
  refine ⟨hsource, hnormal, hall, ?_⟩
  have h := expandFile_circular_iff_reaches_cycle loop hsource loopFirst hnormal
  exact (h.2.2 hall).2 ⟨loopSecond, .single loop_first_includes, loop_onCycle⟩

end Catalog

end StyleBundle

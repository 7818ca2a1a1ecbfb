import StyleBundle.Proofs.Expansion.InPlace
import StyleBundle.Proofs.Expansion.Request

/-!
# The paths in flight decide only failure

A file may be reached in many places of an expansion, with different paths in flight.  One request
is answered twice here, the second time with more paths in flight.  The first time it fails only
if it also fails the second time.  Where it succeeds the first time, the second answer is the
same, or one of the paths that were added is reported as circular (`Expansion.Hindered`).

A step is impartial if this holds of it for any two sets of paths in flight
(`Expansion.Impartial`).  Impartial steps put together are impartial, and so is a step with a path
in flight: the path comes into flight both times.  By induction on the depth all of expansion is
impartial (`Catalog.impartial_expandWithin`).
-/

namespace StyleBundle

/-! ## More paths in flight -/

namespace InFlight

variable {few many : InFlight} {p q : Path}

/-- All that is in flight in the first set is in flight in the second one. -/
instance : HasSubset InFlight :=
  ⟨fun few many => ∀ q, few.contains q = true → many.contains q = true⟩

/-- The path is in flight in the second set and not in the first one. -/
def Adds (few many : InFlight) (q : Path) : Prop :=
  many.contains q = true ∧ few.contains q = false

theorem contains_cons {paths : List Path} :
    (InFlight.mk (p :: paths)).contains q = true ↔
      q.components = p.components ∨ (InFlight.mk paths).contains q = true :=
  Path.isIn_cons

theorem contains_eq_false_of_subset (h : few ⊆ many) (hq : many.contains q = false) :
    few.contains q = false := by
  rw [← Bool.not_eq_true] at hq ⊢
  exact fun hin => hq (h q hin)

theorem cons_subset_cons (h : few ⊆ many) (p : Path) :
    InFlight.mk (p :: few.paths) ⊆ InFlight.mk (p :: many.paths) := by
  intro q hq
  exact contains_cons.2 ((contains_cons.1 hq).imp_right (h q))

/-- A path that comes into flight in both sets is not among the added ones. -/
theorem Adds.of_cons (h : Adds ⟨p :: few.paths⟩ ⟨p :: many.paths⟩ q) : Adds few many q := by
  obtain ⟨hmany, hfew⟩ := h
  rw [← Bool.not_eq_true, contains_cons, not_or] at hfew
  exact ⟨(contains_cons.1 hmany).resolve_left hfew.1, Bool.not_eq_true _ ▸ hfew.2⟩

end InFlight

/-! ## Impartial steps -/

namespace Expansion

variable {α β : Type} {added added' : Path → Prop}

/-- The second outcome is what the first one becomes when paths are added to those in flight. -/
inductive Hindered (added : Path → Prop) : Except ResolveError α → Except ResolveError α → Prop
  /-- The added paths do not matter. -/
  | same (a : α) : Hindered added (.ok a) (.ok a)
  /-- An added path is in the way. -/
  | circular (a : α) (q : Path) (hq : added q) : Hindered added (.ok a) (.error (.circular q))
  /-- What failed before fails again, but maybe earlier. -/
  | failed (cause other : ResolveError) : Hindered added (.error cause) (.error other)

theorem hindered_refl (x : Except ResolveError α) : Hindered added x x := by
  cases x with
  | ok a => exact .same a
  | error cause => exact .failed cause cause

theorem hindered_circular {q : Path} (hq : added q) (x : Except ResolveError α) :
    Hindered added x (.error (.circular q)) := by
  cases x with
  | ok a => exact .circular a q hq
  | error cause => exact .failed cause (.circular q)

theorem Hindered.mono {x y : Except ResolveError α} (h : Hindered added x y)
    (himp : ∀ q, added q → added' q) : Hindered added' x y := by
  cases h with
  | same a => exact .same a
  | circular a q hq => exact .circular a q (himp q hq)
  | failed cause other => exact .failed cause other

theorem Hindered.bind {x y : Except ResolveError α} {f g : α → Except ResolveError β}
    (h : Hindered added x y) (hnext : ∀ a, Hindered added (f a) (g a)) :
    Hindered added (x >>= f) (y >>= g) := by
  cases h with
  | same a => exact hnext a
  | circular a q hq => exact hindered_circular hq (f a)
  | failed cause other => exact .failed cause other

theorem Hindered.ok_of_ok {x y : Except ResolveError α} {a : α} (h : Hindered added x y)
    (hy : y = .ok a) :
    x = .ok a := by
  cases h with
  | same b => exact hy
  | circular b q hq => cases hy
  | failed cause other => cases hy

theorem Hindered.cases_of_ok {x y : Except ResolveError α} {a : α} (h : Hindered added x y)
    (hx : x = .ok a) : y = .ok a ∨ ∃ q, y = .error (.circular q) ∧ added q := by
  cases h with
  | same b => exact .inl hx
  | circular b q hq => exact .inr ⟨q, rfl, hq⟩
  | failed cause other => cases hx

/-- The paths in flight have a say only in whether the step fails. -/
structure Impartial (step : Expansion α) : Prop where
  framed : Framed step
  hindered : ∀ few many : InFlight, few ⊆ many →
    Hindered (few.Adds many) (outcome step few) (outcome step many)

theorem impartial_pure (a : α) : Impartial (pure a : Expansion α) :=
  ⟨framed_pure a, fun _ _ _ => hindered_refl _⟩

theorem impartial_throw (cause : ResolveError) : Impartial (throw cause : Expansion α) :=
  ⟨framed_throw cause, fun _ _ _ => hindered_refl _⟩

theorem impartial_ofExcept (result : Except ResolveError α) : Impartial (ofExcept result) := by
  refine ⟨framed_ofExcept result, fun few many _ => ?_⟩
  rw [outcome_ofExcept, outcome_ofExcept]
  exact hindered_refl result

theorem Impartial.bind {step : Expansion α} {next : α → Expansion β} (hstep : Impartial step)
    (hnext : ∀ a, Impartial (next a)) : Impartial (step >>= next) := by
  have hframed := fun a => (hnext a).framed
  refine ⟨hstep.framed.bind hframed, fun few many h => ?_⟩
  rw [outcome_bind hstep.framed hframed, outcome_bind hstep.framed hframed]
  exact (hstep.hindered few many h).bind fun a => (hnext a).hindered few many h

theorem Impartial.mapM {step : α → Expansion β} (hstep : ∀ a, Impartial (step a))
    (items : List α) :
    Impartial (items.mapM step) := by
  induction items with
  | nil => exact impartial_pure []
  | cons a items ih =>
    rw [List.mapM_cons]
    exact (hstep a).bind fun b => ih.bind fun bs => impartial_pure (b :: bs)

/-- A path that is in flight the second time only is itself the added path that is in the way. -/
theorem Impartial.guarded {p : Path} {step : Expansion α} (hstep : Impartial step) :
    Impartial (guarded p step) := by
  refine ⟨hstep.framed.guarded, fun few many h => ?_⟩
  rw [outcome_guarded hstep.framed, outcome_guarded hstep.framed]
  cases hmany : many.contains p with
  | true =>
    rw [InFlight.enter?_of_contains hmany]
    cases hfew : few.contains p with
    | true =>
      rw [InFlight.enter?_of_contains hfew]
      exact hindered_refl _
    | false => exact hindered_circular ⟨hmany, hfew⟩ _
  | false =>
    rw [InFlight.enter?_of_not_contains hmany,
      InFlight.enter?_of_not_contains (InFlight.contains_eq_false_of_subset h hmany)]
    exact (hstep.hindered _ _ (InFlight.cons_subset_cons h p)).mono fun q hq => hq.of_cons

end Expansion

/-! ## The steps of expansion -/

namespace Catalog

open Expansion

variable {c : Catalog}

theorem impartial_expandRead {expand : Text → Path → Expansion Expanded}
    (h : ∀ text p, Impartial (expand text p)) (p : Path) : Impartial (c.expandRead expand p) := by
  refine Impartial.bind ⟨framed_readText c p, fun few many _ => ?_⟩ fun text => h text p
  rw [outcome_readText, outcome_readText]
  exact hindered_refl _

section Directives

variable {expand : Path → Expansion Expanded} (h : ∀ p, Impartial (expand p))
include h

theorem impartial_expandTreeWith (tree : Text) (directory : Path) :
    Impartial (c.expandTreeWith expand tree directory) :=
  (Impartial.mapM (fun p => (h p).bind fun e => impartial_pure (p, e)) _).bind fun members =>
    impartial_pure (joinMembers members)

theorem impartial_expandDirectives (text : Text) (directory : Path) :
    Impartial (c.expandDirectives expand text directory) := by
  have hfile : ∀ d, Impartial (c.contributeFile expand directory d) := fun d =>
    (impartial_ofExcept _).bind fun found => (h found).bind fun e => impartial_pure _
  have htree : ∀ d, Impartial (c.contributeTree expand directory d) := fun d =>
    (impartial_expandTreeWith h d.target directory).bind fun e => impartial_pure _
  exact (Impartial.mapM hfile _).bind fun files => (Impartial.mapM htree _).bind fun trees =>
    impartial_pure (assemble text (files ++ trees))

end Directives

/-- The depth is the same both times, so it runs out both times or not at all. -/
theorem impartial_expandWithin (c : Catalog) (depth : Nat) (text : Text) (p : Path) :
    Impartial (c.expandWithin depth text p) := by
  induction depth generalizing text p with
  | zero => exact impartial_throw _
  | succ depth ih =>
    exact (impartial_expandDirectives
      (impartial_expandRead ih) text p.normalize.directory).guarded

end Catalog

namespace Request

open Catalog Expansion

theorem impartial_run (c : Catalog) (r : Request) : Impartial (r.run c) := by
  have hfile := impartial_expandRead (c := c) (impartial_expandWithin c c.depth)
  cases r with
  | text t p => exact impartial_expandWithin c c.depth t p
  | file p => exact hfile p
  | bundle p => exact (hfile p.normalize).bind fun e => impartial_pure _
  | tree t directory => exact impartial_expandTreeWith hfile t directory

/-- A request that succeeds succeeds with the same result when fewer paths are in flight.  With
more paths in flight it has the same result, or one of the added paths is reported as circular. -/
theorem inFlight_decides_only_failure (c : Catalog) (r : Request) (s t : Session)
    (h : s.inFlight ⊆ t.inFlight) :
    (∀ e t', r.run c t = .ok e t' → ∃ s', r.run c s = .ok e s') ∧
      ∀ e s', r.run c s = .ok e s' →
        (∃ t', r.run c t = .ok e t') ∨
          ∃ q t', r.run c t = .error (.circular q) t' ∧ t.inFlight.contains q = true ∧
            s.inFlight.contains q = false := by
  obtain ⟨hframed, hhindered⟩ := impartial_run c r
  have hboth := hhindered s.inFlight t.inFlight h
  constructor
  · intro e t' hrun
    exact hframed.exists_ok (hboth.ok_of_ok (hframed.outcome_of_ok hrun))
  · intro e s' hrun
    rcases hboth.cases_of_ok (hframed.outcome_of_ok hrun) with hok | ⟨q, herror, hq⟩
    · exact .inl (hframed.exists_ok hok)
    · obtain ⟨reads, hanswer⟩ := hframed t
      rw [herror] at hanswer
      exact .inr ⟨q, _, hanswer, hq.1, hq.2⟩

/-! ### A file that is in flight under another spelling -/

/-- A text that asks for one file. -/
def mixedLine : Text := "y//= require 'b'".toList

/-- The directive of the line. -/
def mixedDirective : Directive :=
  ⟨.require, "b".toList, "//= require 'b'".toList, 1⟩

/-- The request to expand the line. -/
def mixedRequest : Request :=
  .text mixedLine mixedEntry

/-- Another file is in flight. -/
def mixedSession : Session :=
  ⟨⟨[mixedMember]⟩, []⟩

/-- Besides, the file that is asked for is in flight.  Both are spelled in another way. -/
def mixedBusy : Session :=
  ⟨⟨[⟨"b.scss/".toList⟩, ⟨"t//c.scss".toList⟩]⟩, []⟩

private theorem mixedLine_parse : Directive.parse mixedLine = [mixedDirective] := by decide

theorem mixed_request_ok :
    ∃ s', mixedRequest.run mixed mixedSession = .ok ⟨"yB".toList, [mixedFile]⟩ s' := by
  rw [mixedRequest, run, expandText]
  apply (framed_expandWithin mixed mixed.depth mixedLine mixedEntry).exists_ok
  refine outcome_expandWithin_eq_ok_iff.2 ⟨rfl, assembled_of_parse_eq_singleton mixedLine_parse
    (.file mixedFile ⟨"B".toList, []⟩ rfl rfl (mixed_file ?_)) ?_ ?_⟩
  · decide
  · decide
  · decide

theorem mixed_request_not_ok (e : Expanded) (t' : Session) :
    mixedRequest.run mixed mixedBusy ≠ .ok e t' := by
  rw [mixedRequest, run, expandText]
  intro hrun
  have houtcome := (framed_expandWithin mixed mixed.depth mixedLine mixedEntry).outcome_of_ok hrun
  obtain ⟨_, hassembled⟩ := outcome_expandWithin_eq_ok_iff.1 houtcome
  have hd : mixedDirective ∈ Directive.parse mixedLine := by
    rw [mixedLine_parse]
    exact List.mem_cons_self
  obtain ⟨e', hchild⟩ := hassembled.exists_child hd (r := mixedFile) rfl
  obtain ⟨_, _, hfree, _⟩ := fileOutcome_eq_ok_iff.1 hchild
  exact absurd hfree (by decide)

theorem mixed_request_hindered :
    mixedSession.inFlight ⊆ mixedBusy.inFlight ∧
      (∃ s', mixedRequest.run mixed mixedSession = .ok ⟨"yB".toList, [mixedFile]⟩ s') ∧
      ∃ q t', mixedRequest.run mixed mixedBusy = .error (.circular q) t' ∧
        mixedBusy.inFlight.contains q = true ∧ mixedSession.inFlight.contains q = false := by
  have hsubset : mixedSession.inFlight ⊆ mixedBusy.inFlight := by
    intro q hq
    obtain ⟨p, hp, hsame⟩ := InFlight.contains_iff.1 hq
    obtain rfl : p = mixedMember := List.mem_singleton.1 hp
    exact InFlight.contains_iff.2 ⟨⟨"t//c.scss".toList⟩, by decide, hsame.trans (by decide)⟩
  obtain ⟨s', hrun⟩ := mixed_request_ok
  refine ⟨hsubset, ⟨s', hrun⟩, ?_⟩
  rcases (inFlight_decides_only_failure mixed mixedRequest _ _ hsubset).2 _ s' hrun with
    ⟨t', hok⟩ | hcircular
  · exact absurd hok (mixed_request_not_ok _ t')
  · exact hcircular

end Request

end StyleBundle

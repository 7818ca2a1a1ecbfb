import Mathlib.Data.List.Forall2
import StyleBundle.Expansion.Expanded
import StyleBundle.Proofs.Path.Components

/-!
# Outcomes of expansion steps

A step of expansion runs in a session, but only the paths in flight matter to it: whatever it
does, it leaves them as it found them, and earlier reads never change its result.
`Expansion.outcome` is the result of a step as a function of the paths in flight.
`Expansion.Framed` says that this function tells all there is to tell about the step, up to the
reads that it records.

There are three groups.

* Paths in flight.  A path that was entered and released leaves no trace
  (`InFlight.release_of_enter?`).
* Steps in general.  Every way of putting steps together keeps them framed, and the outcome of the
  whole follows from the outcomes of the parts.
* The steps of expansion.  All of them are framed (`Catalog.framed_expandWithin`).  Later proofs
  work with their outcomes, `Catalog.outcome_expandWithin_of_contains` for a path in flight and
  `Catalog.outcome_expandWithin_of_not_contains` for any other.
-/

namespace StyleBundle

/-! ## Paths in flight -/

namespace InFlight

@[simp]
theorem size_empty : empty.size = 0 := rfl

theorem contains_iff {s : InFlight} {p : Path} :
    s.contains p = true ↔ ∃ q ∈ s.paths, p.components = q.components :=
  Path.isIn_iff

theorem enter?_of_contains {s : InFlight} {p : Path} (h : s.contains p = true) :
    s.enter? p = none := by
  rw [enter?, if_pos h]

theorem enter?_of_not_contains {s : InFlight} {p : Path} (h : s.contains p = false) :
    s.enter? p = some ⟨p :: s.paths⟩ := by
  rw [enter?, if_neg (by simp [h])]

/-- Releasing a path that was entered gives back what was in flight before. -/
theorem release_of_enter? {s s' : InFlight} {p : Path} (h : s.enter? p = some s') :
    s'.release p = s := by
  cases hc : s.contains p with
  | true =>
    rw [enter?_of_contains hc] at h
    cases h
  | false =>
    rw [enter?_of_not_contains hc, Option.some.injEq] at h
    subst h
    have hkeep : ∀ q ∈ s.paths, (!p.same q) = true := by
      intro q hq
      rw [Bool.not_eq_true', ← Bool.not_eq_true, Path.same_iff]
      intro heq
      have : s.contains p = true := contains_iff.2 ⟨q, hq, heq⟩
      rw [hc] at this
      cases this
    rw [release, List.filter_cons_of_neg (by simp [Path.same_refl]), List.filter_eq_self.2 hkeep]

end InFlight

/-! ## Steps in general -/

namespace Expansion

variable {α β : Type}

/-- The result of a step, told together with the session that it ends in. -/
def answer (result : Except ResolveError α) (s : Session) :
    EStateM.Result ResolveError Session α :=
  match result with
  | .ok a => .ok a s
  | .error cause => .error cause s

/-- The result of a step that starts with the given paths in flight. -/
def outcome (step : Expansion α) (flight : InFlight) : Except ResolveError α :=
  match step ⟨flight, []⟩ with
  | .ok a _ => .ok a
  | .error cause _ => .error cause

/-- The session after some more reads, the latest first. -/
def readOn (s : Session) (reads : List (Path × Text)) : Session :=
  ⟨s.inFlight, reads ++ s.reads⟩

/-- A step whose result depends on the paths in flight only, and that leaves these as they are. -/
def Framed (step : Expansion α) : Prop :=
  ∀ s : Session, ∃ reads, step s = answer (outcome step s.inFlight) (readOn s reads)

/-- A step that behaves like a function of the paths in flight has this function as its
outcome. -/
theorem outcome_eq_of_answer {step : Expansion α} {f : InFlight → Except ResolveError α}
    (h : ∀ s : Session, ∃ reads, step s = answer (f s.inFlight) (readOn s reads)) :
    outcome step = f := by
  funext flight
  obtain ⟨reads, hstep⟩ := h ⟨flight, []⟩
  rw [outcome, hstep]
  cases f flight <;> rfl

theorem framed_of_answer {step : Expansion α} {f : InFlight → Except ResolveError α}
    (h : ∀ s : Session, ∃ reads, step s = answer (f s.inFlight) (readOn s reads)) :
    Framed step := by
  intro s
  rw [outcome_eq_of_answer h]
  exact h s

theorem Framed.outcome_of_ok {step : Expansion α} (h : Framed step) {s s' : Session} {a : α}
    (hs : step s = .ok a s') : outcome step s.inFlight = .ok a := by
  obtain ⟨reads, hanswer⟩ := h s
  rw [hs] at hanswer
  cases hout : outcome step s.inFlight with
  | ok b =>
    rw [hout] at hanswer
    cases hanswer
    rfl
  | error cause =>
    rw [hout] at hanswer
    cases hanswer

theorem Framed.outcome_of_error {step : Expansion α} (h : Framed step) {s s' : Session}
    {cause : ResolveError} (hs : step s = .error cause s') :
    outcome step s.inFlight = .error cause := by
  obtain ⟨reads, hanswer⟩ := h s
  rw [hs] at hanswer
  cases hout : outcome step s.inFlight with
  | ok b =>
    rw [hout] at hanswer
    cases hanswer
  | error cause' =>
    rw [hout] at hanswer
    cases hanswer
    rfl

theorem Framed.exists_ok {step : Expansion α} (h : Framed step) {s : Session} {a : α}
    (ha : outcome step s.inFlight = .ok a) : ∃ s', step s = .ok a s' := by
  obtain ⟨reads, hanswer⟩ := h s
  rw [ha] at hanswer
  exact ⟨_, hanswer⟩

theorem framed_pure (a : α) : Framed (pure a) :=
  framed_of_answer (f := fun _ => .ok a) fun _ => ⟨[], rfl⟩

theorem outcome_pure (a : α) (flight : InFlight) :
    outcome (pure a : Expansion α) flight = .ok a := rfl

theorem framed_throw (cause : ResolveError) : Framed (throw cause : Expansion α) :=
  framed_of_answer (f := fun _ => .error cause) fun _ => ⟨[], rfl⟩

theorem framed_ofExcept (result : Except ResolveError α) : Framed (ofExcept result) := by
  cases result with
  | ok a => exact framed_pure a
  | error cause => exact framed_throw cause

theorem outcome_ofExcept (result : Except ResolveError α) (flight : InFlight) :
    outcome (ofExcept result) flight = result := by
  cases result <;> rfl

/-! ### One step after the other -/

private theorem bind_answer {step : Expansion α} {next : α → Expansion β} (hstep : Framed step)
    (hnext : ∀ a, Framed (next a)) (s : Session) :
    ∃ reads, (step >>= next) s =
      answer (outcome step s.inFlight >>= fun a => outcome (next a) s.inFlight)
        (readOn s reads) := by
  obtain ⟨reads, hs⟩ := hstep s
  cases hout : outcome step s.inFlight with
  | error cause =>
    rw [hout] at hs
    refine ⟨reads, ?_⟩
    change EStateM.bind step next s = _
    rw [EStateM.bind, hs]
    rfl
  | ok a =>
    rw [hout] at hs
    obtain ⟨more, hmore⟩ := hnext a (readOn s reads)
    refine ⟨more ++ reads, ?_⟩
    change EStateM.bind step next s = _
    rw [EStateM.bind, hs]
    change next a (readOn s reads) = answer (outcome (next a) s.inFlight) _
    rw [hmore]
    simp only [readOn, List.append_assoc]

theorem Framed.bind {step : Expansion α} {next : α → Expansion β} (hstep : Framed step)
    (hnext : ∀ a, Framed (next a)) : Framed (step >>= next) :=
  framed_of_answer (f := fun flight => outcome step flight >>= fun a => outcome (next a) flight)
    (bind_answer hstep hnext)

theorem outcome_bind {step : Expansion α} {next : α → Expansion β} (hstep : Framed step)
    (hnext : ∀ a, Framed (next a)) (flight : InFlight) :
    outcome (step >>= next) flight =
      (outcome step flight >>= fun a => outcome (next a) flight) :=
  congrFun (outcome_eq_of_answer (f := fun flight => outcome step flight >>= fun a =>
    outcome (next a) flight) (bind_answer hstep hnext)) flight

theorem Framed.mapM {step : α → Expansion β} (hstep : ∀ a, Framed (step a)) (items : List α) :
    Framed (items.mapM step) := by
  induction items with
  | nil => exact framed_pure []
  | cons a items ih =>
    rw [List.mapM_cons]
    exact (hstep a).bind fun b => ih.bind fun bs => framed_pure (b :: bs)

theorem outcome_mapM {step : α → Expansion β} (hstep : ∀ a, Framed (step a)) (items : List α)
    (flight : InFlight) :
    outcome (items.mapM step) flight = items.mapM fun a => outcome (step a) flight := by
  induction items with
  | nil => rfl
  | cons a items ih =>
    rw [List.mapM_cons, List.mapM_cons, outcome_bind (hstep a) fun b =>
      (Framed.mapM hstep items).bind fun bs => framed_pure (b :: bs)]
    congr 1
    funext b
    rw [outcome_bind (Framed.mapM hstep items) fun bs => framed_pure (b :: bs), ih]
    rfl

/-! ### A step with a path in flight -/

private theorem guarded_answer {p : Path} {step : Expansion α} (hstep : Framed step)
    (s : Session) :
    ∃ reads, guarded p step s =
      answer
        (match s.inFlight.enter? p with
          | none => .error (.circular p)
          | some flight => outcome step flight)
        (readOn s reads) := by
  rw [guarded]
  cases henter : s.inFlight.enter? p with
  | none => exact ⟨[], rfl⟩
  | some flight =>
    obtain ⟨reads, hs⟩ := hstep ⟨flight, s.reads⟩
    refine ⟨reads, ?_⟩
    have hrelease : (readOn ⟨flight, s.reads⟩ reads).release p = readOn s reads := by
      rw [Session.release, readOn, readOn]
      simp only [InFlight.release_of_enter? henter]
    simp only [hs]
    cases outcome step flight with
    | ok a =>
      simp only [answer]
      rw [hrelease]
    | error cause =>
      simp only [answer]
      rw [hrelease]

theorem Framed.guarded {p : Path} {step : Expansion α} (hstep : Framed step) :
    Framed (guarded p step) :=
  framed_of_answer (f := fun flight =>
    match flight.enter? p with
    | none => .error (.circular p)
    | some flight => outcome step flight) (guarded_answer hstep)

theorem outcome_guarded {p : Path} {step : Expansion α} (hstep : Framed step)
    (flight : InFlight) :
    outcome (Expansion.guarded p step) flight =
      match flight.enter? p with
      | none => .error (.circular p)
      | some flight => outcome step flight :=
  congrFun (outcome_eq_of_answer (f := fun flight =>
    match flight.enter? p with
    | none => .error (.circular p)
    | some flight => outcome step flight) (guarded_answer hstep)) flight

end Expansion

/-! ## The steps of expansion -/

namespace Catalog

open Expansion

variable {c : Catalog} {flight : InFlight}

private theorem readText_answer (c : Catalog) (p : Path) (s : Session) :
    ∃ reads, c.readText p s =
      answer ((c.source.read p).mapError (.unreadable p)) (readOn s reads) := by
  rw [readText]
  cases c.source.read p with
  | ok text => exact ⟨[(p, text)], rfl⟩
  | error cause => exact ⟨[], rfl⟩

theorem framed_readText (c : Catalog) (p : Path) : Framed (c.readText p) :=
  framed_of_answer (f := fun _ => (c.source.read p).mapError (.unreadable p))
    (readText_answer c p)

theorem outcome_readText (c : Catalog) (p : Path) (flight : InFlight) :
    outcome (c.readText p) flight = (c.source.read p).mapError (.unreadable p) :=
  congrFun (outcome_eq_of_answer (f := fun _ => (c.source.read p).mapError (.unreadable p))
    (readText_answer c p)) flight

theorem framed_expandRead {expand : Text → Path → Expansion Expanded}
    (h : ∀ text p, Framed (expand text p)) (p : Path) : Framed (c.expandRead expand p) :=
  (framed_readText c p).bind fun text => h text p

theorem outcome_expandRead {expand : Text → Path → Expansion Expanded}
    (h : ∀ text p, Framed (expand text p)) (p : Path) :
    outcome (c.expandRead expand p) flight =
      match c.source.read p with
      | .ok text => outcome (expand text p) flight
      | .error cause => .error (.unreadable p cause) := by
  rw [expandRead, outcome_bind (framed_readText c p) fun text => h text p, outcome_readText]
  cases c.source.read p <;> rfl

theorem framed_expandTreeWith {expand : Path → Expansion Expanded} (h : ∀ p, Framed (expand p))
    (tree : Text) (directory : Path) : Framed (c.expandTreeWith expand tree directory) :=
  (Framed.mapM (fun p => (h p).bind fun e => framed_pure (p, e)) _).bind fun members =>
    framed_pure (joinMembers members)

theorem outcome_expandTreeWith {expand : Path → Expansion Expanded} (h : ∀ p, Framed (expand p))
    (tree : Text) (directory : Path) :
    outcome (c.expandTreeWith expand tree directory) flight = do
      let members ← (treeMembers c.source (treeDirectory tree directory)).mapM fun p => do
        let expanded ← outcome (expand p) flight
        return (p, expanded)
      return joinMembers members := by
  have hmember : ∀ p, Framed (do let e ← expand p; return (p, e)) := fun p =>
    (h p).bind fun e => framed_pure (p, e)
  rw [expandTreeWith, outcome_bind (Framed.mapM hmember _) fun members =>
    framed_pure (joinMembers members), outcome_mapM hmember]
  simp only [outcome_bind (h _) fun e => framed_pure (_, e), outcome_pure]
  rfl

theorem framed_contributeFile {expand : Path → Expansion Expanded} (h : ∀ p, Framed (expand p))
    (directory : Path) (d : Directive) : Framed (c.contributeFile expand directory d) :=
  (framed_ofExcept _).bind fun found => (h found).bind fun _ => framed_pure _

theorem outcome_contributeFile {expand : Path → Expansion Expanded} (h : ∀ p, Framed (expand p))
    (directory : Path) (d : Directive) :
    outcome (c.contributeFile expand directory d) flight = do
      let found ← c.locate d.target directory
      let expanded ← outcome (expand found) flight
      return contribute d expanded.content (found :: expanded.dependencies) := by
  rw [contributeFile, outcome_bind (framed_ofExcept _) fun found =>
    (h found).bind fun _ => framed_pure _, outcome_ofExcept]
  congr 1
  funext found
  rw [outcome_bind (h found) fun _ => framed_pure _]
  rfl

theorem framed_contributeTree {expand : Path → Expansion Expanded} (h : ∀ p, Framed (expand p))
    (directory : Path) (d : Directive) : Framed (c.contributeTree expand directory d) :=
  (framed_expandTreeWith h d.target directory).bind fun _ => framed_pure _

theorem outcome_contributeTree {expand : Path → Expansion Expanded} (h : ∀ p, Framed (expand p))
    (directory : Path) (d : Directive) :
    outcome (c.contributeTree expand directory d) flight = do
      let expanded ← outcome (c.expandTreeWith expand d.target directory) flight
      return contribute d expanded.content expanded.dependencies := by
  rw [contributeTree, outcome_bind (framed_expandTreeWith h d.target directory) fun _ =>
    framed_pure _]
  rfl

theorem framed_expandDirectives {expand : Path → Expansion Expanded} (h : ∀ p, Framed (expand p))
    (text : Text) (directory : Path) : Framed (c.expandDirectives expand text directory) :=
  (Framed.mapM (framed_contributeFile h directory) _).bind fun _ =>
    (Framed.mapM (framed_contributeTree h directory) _).bind fun _ => framed_pure _

theorem outcome_expandDirectives {expand : Path → Expansion Expanded} (h : ∀ p, Framed (expand p))
    (text : Text) (directory : Path) :
    outcome (c.expandDirectives expand text directory) flight = do
      let files ← (ofKind .require (Directive.parse text)).mapM fun d =>
        outcome (c.contributeFile expand directory d) flight
      let trees ← (ofKind .requireTree (Directive.parse text)).mapM fun d =>
        outcome (c.contributeTree expand directory d) flight
      return assemble text (files ++ trees) := by
  have hfiles := framed_contributeFile (c := c) h directory
  have htrees := framed_contributeTree (c := c) h directory
  rw [expandDirectives, outcome_bind (Framed.mapM hfiles _) fun _ =>
    (Framed.mapM htrees _).bind fun _ => framed_pure _, outcome_mapM hfiles]
  congr 1
  funext files
  rw [outcome_bind (Framed.mapM htrees _) fun _ => framed_pure _, outcome_mapM htrees]
  rfl

/-- Expansion only looks at the paths in flight, and leaves them as they are. -/
theorem framed_expandWithin (c : Catalog) (depth : Nat) (text : Text) (p : Path) :
    Framed (c.expandWithin depth text p) := by
  induction depth generalizing text p with
  | zero => exact framed_throw _
  | succ depth ih =>
    exact (framed_expandDirectives (framed_expandRead ih) text p.normalize.directory).guarded

theorem outcome_expandWithin_zero (c : Catalog) (text : Text) (p : Path) (flight : InFlight) :
    outcome (c.expandWithin 0 text p) flight = .error (.circular p.normalize) := rfl

/-- A path in flight is refused. -/
theorem outcome_expandWithin_of_contains (depth : Nat) (text : Text) {p : Path}
    (h : flight.contains p.normalize = true) :
    outcome (c.expandWithin depth text p) flight = .error (.circular p.normalize) := by
  cases depth with
  | zero => rfl
  | succ depth =>
    have hdirectives := framed_expandDirectives (c := c)
      (framed_expandRead (c := c) (framed_expandWithin c depth)) text p.normalize.directory
    rw [expandWithin, outcome_guarded hdirectives, InFlight.enter?_of_contains h]

/-- Any other path is in flight while the directives of the text are expanded. -/
theorem outcome_expandWithin_of_not_contains (depth : Nat) (text : Text) {p : Path}
    (h : flight.contains p.normalize = false) :
    outcome (c.expandWithin (depth + 1) text p) flight =
      outcome (c.expandDirectives (c.expandRead (c.expandWithin depth)) text
        p.normalize.directory) ⟨p.normalize :: flight.paths⟩ := by
  have hdirectives := framed_expandDirectives (c := c)
    (framed_expandRead (c := c) (framed_expandWithin c depth)) text p.normalize.directory
  rw [expandWithin, outcome_guarded hdirectives, InFlight.enter?_of_not_contains h]

theorem framed_expandFile (c : Catalog) (p : Path) : Framed (c.expandFile p) :=
  framed_expandRead (framed_expandWithin c c.depth) p

end Catalog

end StyleBundle

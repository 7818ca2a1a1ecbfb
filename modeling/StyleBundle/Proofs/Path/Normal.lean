import Mathlib.Data.List.TakeWhile
import StyleBundle.Path.Normal
import StyleBundle.Proofs.Path.Components

/-!
# Normal paths

A normal list of components is a root and names, or steps up and names (`Path.NormalSteps`).
Folding the components of any path gives such a list (`Path.normalSteps_foldComponents`), folding
changes no such list (`Path.NormalSteps.fold`), and the clean text of such a list has it as its
components (`Path.NormalSteps.components_ofComponents`).

It follows that normalizing twice is normalizing once (`Path.normalize_normalize`), and that two
normal paths are the same only if their texts are equal (`Path.eq_of_same_normalize`).
-/

namespace StyleBundle

namespace Path

/-! ## Normal lists of components -/

/-- Components in which nothing is left to fold. -/
inductive NormalSteps : List Component → Prop
  /-- Names from the root. -/
  | absolute (names : List Text) (h : ∀ name ∈ names, Component.IsName name) :
    NormalSteps (.root :: names.map .normal)
  /-- Names after some steps up. -/
  | relative (ups : Nat) (names : List Text) (h : ∀ name ∈ names, Component.IsName name) :
    NormalSteps (List.replicate ups .parent ++ names.map .normal)

/-- A step up takes a name back, does nothing at the root, or stays. -/
theorem foldStep_parent_cases (stack : List Component) :
    (∃ name, stack = .normal name :: foldStep stack .parent) ∨
      (∃ below, stack = .root :: below ∧ foldStep stack .parent = stack) ∨
        foldStep stack .parent = .parent :: stack := by
  cases stack with
  | nil => exact .inr (.inr rfl)
  | cons top below =>
    cases top with
    | normal name => exact .inl ⟨name, rfl⟩
    | root => exact .inr (.inl ⟨below, rfl, rfl⟩)
    | current => exact .inr (.inr rfl)
    | parent => exact .inr (.inr rfl)

/-- A name goes on top of the stack. -/
private theorem foldl_foldStep_names (names : List Text) (stack : List Component) :
    (names.map Component.normal).foldl foldStep stack =
      (names.map Component.normal).reverse ++ stack := by
  induction names generalizing stack with
  | nil => rfl
  | cons name names ih =>
    rw [List.map_cons, List.foldl_cons, List.reverse_cons, List.append_assoc]
    exact ih (.normal name :: stack)

theorem foldComponents_append_names (steps : List Component) (names : List Text) :
    foldComponents (steps ++ names.map .normal) = foldComponents steps ++ names.map .normal := by
  rw [foldComponents, List.foldl_append, foldl_foldStep_names, List.reverse_append,
    List.reverse_reverse]
  rfl

/-- Steps up pile up where there is no name to take back. -/
private theorem foldStep_ups (ups : Nat) :
    foldStep (List.replicate ups .parent) .parent = List.replicate (ups + 1) .parent := by
  cases ups with
  | zero => rfl
  | succ ups => rfl

theorem foldl_foldStep_ups (ups below : Nat) :
    (List.replicate ups Component.parent).foldl foldStep (List.replicate below .parent) =
      List.replicate (ups + below) .parent := by
  induction ups generalizing below with
  | zero => simp
  | succ ups ih =>
    rw [List.replicate_succ, List.foldl_cons, foldStep_ups, ih]
    congr 1
    omega

/-- Folding changes nothing where nothing is left to fold. -/
theorem NormalSteps.fold {steps : List Component} (h : NormalSteps steps) :
    foldComponents steps = steps := by
  cases h with
  | absolute names _ =>
    have hroot : foldStep [] .root = [.root] := rfl
    rw [foldComponents, List.foldl_cons, hroot, foldl_foldStep_names]
    simp
  | relative ups names _ =>
    have hups := foldl_foldStep_ups ups 0
    rw [List.replicate_zero, Nat.add_zero] at hups
    rw [foldComponents, List.foldl_append, hups, foldl_foldStep_names]
    simp

/-- A name at the end keeps a list normal. -/
theorem NormalSteps.append_name {steps : List Component} {name : Text} (h : NormalSteps steps)
    (hname : Component.IsName name) : NormalSteps (steps ++ [.normal name]) := by
  have hmore : ∀ names : List Text, (∀ n ∈ names, Component.IsName n) →
      ∀ n ∈ names ++ [name], Component.IsName n := by
    intro names hnames n hn
    rw [List.mem_append, List.mem_singleton] at hn
    rcases hn with hn | rfl
    · exact hnames n hn
    · exact hname
  cases h with
  | absolute names hnames =>
    simpa using NormalSteps.absolute (names ++ [name]) (hmore names hnames)
  | relative ups names hnames =>
    simpa using NormalSteps.relative ups (names ++ [name]) (hmore names hnames)

/-- A step up keeps the stack normal. -/
private theorem foldStep_parent_normal {stack : List Component} (h : NormalSteps stack.reverse) :
    NormalSteps (foldStep stack .parent).reverse := by
  generalize hsteps : stack.reverse = steps at h
  obtain rfl : stack = steps.reverse := by rw [← hsteps, List.reverse_reverse]
  cases h with
  | absolute names hnames =>
    rcases List.eq_nil_or_concat names with rfl | ⟨front, last, rfl⟩
    · exact NormalSteps.absolute [] (by simp)
    · have hfold :
          foldStep (Component.root :: (front.concat last).map Component.normal).reverse .parent =
            (Component.root :: front.map Component.normal).reverse := by
        simp [foldStep]
      rw [hfold, List.reverse_reverse]
      exact NormalSteps.absolute front fun n hn => hnames n (by simp [hn])
  | relative ups names hnames =>
    rcases List.eq_nil_or_concat names with rfl | ⟨front, last, rfl⟩
    · rw [List.map_nil, List.append_nil, List.reverse_replicate, foldStep_ups,
        List.reverse_replicate]
      simpa using NormalSteps.relative (ups + 1) [] (by simp)
    · have hfold : foldStep
          (List.replicate ups Component.parent ++
            (front.concat last).map Component.normal).reverse .parent =
          (List.replicate ups Component.parent ++ front.map Component.normal).reverse := by
        simp [foldStep]
      rw [hfold, List.reverse_reverse]
      exact NormalSteps.relative ups front fun n hn => hnames n (by simp [hn])

/-! ## Folding the components of a path -/

private theorem foldl_foldStep_normal (steps : List Component) :
    ∀ stack : List Component, NormalSteps stack.reverse →
      (∀ step ∈ steps, step = .parent ∨ ∃ name, Component.IsName name ∧ step = .normal name) →
        NormalSteps (steps.foldl foldStep stack).reverse := by
  induction steps with
  | nil => intro stack h _; exact h
  | cons step steps ih =>
    intro stack h hsteps
    rw [List.foldl_cons]
    refine ih _ ?_ fun s hs => hsteps s (List.mem_cons_of_mem step hs)
    rcases hsteps step List.mem_cons_self with rfl | ⟨name, hname, rfl⟩
    · exact foldStep_parent_normal h
    · have hpush : (foldStep stack (.normal name)).reverse = stack.reverse ++ [.normal name] :=
        List.reverse_cons
      rw [hpush]
      exact h.append_name hname

/-- Folding leaves nothing to fold. -/
theorem normalSteps_foldComponents (p : Path) : NormalSteps (foldComponents p.components) := by
  rw [foldComponents, components_eq, List.foldl_append]
  refine foldl_foldStep_normal _ _ ?_ fun step hstep => eq_parent_or_isName hstep
  rcases lead_cases p with ⟨_, _, hlead, _⟩ | ⟨_, _, hlead, _⟩ | ⟨_, _, hlead, _⟩
  · rw [hlead]
    exact NormalSteps.absolute [] (by simp)
  · rw [hlead]
    exact NormalSteps.relative 0 [] (by simp)
  · rw [hlead]
    exact NormalSteps.relative 0 [] (by simp)

/-! ## The clean text -/

theorem ofComponents_append (steps : List Component) (step : Component) :
    ofComponents (steps ++ [step]) = (ofComponents steps).push step.text := by
  rw [ofComponents, ofComponents, List.foldl_append]
  rfl

/-- Steps up and names at the end of a clean text are components of their own. -/
theorem components_ofComponents_append {steps more : List Component}
    (h : (ofComponents steps).components = steps)
    (hmore : ∀ step ∈ more, step = .parent ∨ ∃ name,
      Component.IsName name ∧ step = .normal name) :
    (ofComponents (steps ++ more)).components = steps ++ more := by
  induction more generalizing steps with
  | nil => simpa using h
  | cons step more ih =>
    obtain ⟨hslash, _, hidle, hpiece⟩ :=
      Component.piece_of_step (hmore step List.mem_cons_self)
    have hstep : (ofComponents (steps ++ [step])).components = steps ++ [step] := by
      rw [ofComponents_append, components_push _ hslash hidle, hpiece, h]
      rfl
    have hall := ih hstep fun s hs => hmore s (List.mem_cons_of_mem step hs)
    simpa using hall

/-- The clean text of a normal list has this list as its components. -/
theorem NormalSteps.components_ofComponents {steps : List Component} (h : NormalSteps steps) :
    (ofComponents steps).components = steps := by
  cases h with
  | absolute names hnames =>
    have hroot : (ofComponents [.root]).components = [.root] := by decide
    refine components_ofComponents_append hroot fun step hstep => ?_
    obtain ⟨name, hname, rfl⟩ := List.mem_map.1 hstep
    exact .inr ⟨name, hnames name hname, rfl⟩
  | relative ups names hnames =>
    have hempty : (ofComponents []).components = [] := by decide
    rw [← List.nil_append (List.replicate ups Component.parent), List.append_assoc]
    refine components_ofComponents_append hempty fun step hstep => ?_
    rcases List.mem_append.1 hstep with hup | hnamed
    · exact .inl (List.eq_of_mem_replicate hup)
    · obtain ⟨name, hname, rfl⟩ := List.mem_map.1 hnamed
      exact .inr ⟨name, hnames name hname, rfl⟩

/-- The clean text of a path has the components of the path. -/
theorem components_ofComponents_components (p : Path) :
    (ofComponents p.components).components = p.components := by
  rw [components_eq]
  refine components_ofComponents_append ?_ fun step hstep => eq_parent_or_isName hstep
  rcases lead_cases p with ⟨_, _, hlead, _⟩ | ⟨_, _, hlead, _⟩ | ⟨_, _, hlead, _⟩
  · rw [hlead]
    decide
  · rw [hlead]
    decide
  · rw [hlead]
    decide

/-! ## Normalizing -/

theorem components_normalize (p : Path) : p.normalize.components = foldComponents p.components :=
  (normalSteps_foldComponents p).components_ofComponents

theorem normalSteps_normalize (p : Path) : NormalSteps p.normalize.components := by
  rw [components_normalize]
  exact normalSteps_foldComponents p

/-- Normalizing depends on the components alone. -/
theorem normalize_congr {p q : Path} (h : p.components = q.components) :
    p.normalize = q.normalize := by
  rw [normalize, normalize, h]

@[simp] theorem normalize_normalize (p : Path) : p.normalize.normalize = p.normalize := by
  rw [normalize, components_normalize, (normalSteps_foldComponents p).fold]
  rfl

/-- A path whose components are normal is the same as its normal form. -/
theorem components_normalize_of_normalSteps {p : Path} (h : NormalSteps p.components) :
    p.normalize.components = p.components := by
  rw [components_normalize, h.fold]

/-- Two normal paths that are the same have one text. -/
theorem eq_of_same_normalize {p q : Path} (hp : p.normalize = p) (hq : q.normalize = q)
    (h : p.same q = true) : p = q := by
  rw [← hp, ← hq]
  exact normalize_congr (same_iff.1 h)

/-- Behind the same steps, different names are different paths. -/
theorem normalize_eq_iff_of_names {p q : Path} {steps : List Component} {names names' : List Text}
    (hp : p.components = steps ++ names.map .normal)
    (hq : q.components = steps ++ names'.map .normal) :
    p.normalize = q.normalize ↔ names = names' := by
  constructor
  · intro h
    have hfold := congrArg components h
    rw [components_normalize, components_normalize, hp, hq, foldComponents_append_names,
      foldComponents_append_names] at hfold
    exact (List.map_inj_right fun _ _ => Component.normal.inj).1 (List.append_cancel_left hfold)
  · rintro rfl
    exact normalize_congr (hp.trans hq.symm)

end Path

end StyleBundle

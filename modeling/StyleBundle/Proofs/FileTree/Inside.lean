import Mathlib.Data.List.Infix
import StyleBundle.Proofs.FileTree.Write
import StyleBundle.Proofs.Path.Absolute

/-!
# Changes inside a directory

A path goes on from a directory and never leaves it again if its further steps do not climb
(`Path.StaysIn`).  Then the location that it leads to lies inside the location of the directory,
and so do the locations of the directories in between.

A tree that was changed inside a directory alone is the same outside of it, but for the
directories on the way to it, which may be new (`FileTree.SameOutside`).  Removing the directory,
making directories on such paths and writing to them are changes of this kind.
-/

namespace StyleBundle

namespace Path

open FileTree

/-! ## Paths that stay in a directory -/

/-- The location that an absolute path leads to. -/
def place (p : Path) : Location :=
  p.components.foldl stepPlace []

/-- Whether the steps never lead above a directory, if they start the given number of directories
below it. -/
def staysBelow : (depth : Nat) → List Component → Bool
  | _, [] => true
  | depth, .normal _ :: steps => staysBelow (depth + 1) steps
  | depth + 1, .parent :: steps => staysBelow depth steps
  | 0, .parent :: _ => false
  | depth, .current :: steps => staysBelow depth steps
  | _, .root :: _ => false

/-- The path goes on from the base and never climbs out of it. -/
def StaysIn (base p : Path) : Prop :=
  ∃ steps, p.components = base.components ++ steps ∧ staysBelow 0 steps = true

/-- The path of the base leads through the location. -/
def LeadsThrough (base : Path) (place : Location) : Prop :=
  ∃ steps, steps <+: base.components ∧ place = steps.foldl stepPlace []

variable {base p q : Path} {depth : Nat} {steps : List Component}

theorem placeOf_eq_place (t : FileTree) (h : p.isAbsolute = true) :
    t.placeOf p.components = p.place := by
  rw [placeOf_components, start, if_pos h]
  rfl

theorem staysBelow_append_names (depth : Nat) (steps : List Component) (names : List Text) :
    staysBelow depth (steps ++ names.map .normal) = staysBelow depth steps := by
  fun_induction staysBelow depth steps with
  | case1 depth =>
    induction names generalizing depth with
    | nil => rfl
    | cons name names ih => exact ih (depth + 1)
  | case2 depth name steps ih => exact ih
  | case3 depth steps ih => exact ih
  | case4 => rfl
  | case5 depth steps ih => exact ih
  | case6 => rfl

theorem staysBelow_front {front : List Component} (h : staysBelow depth steps = true)
    (hfront : front <+: steps) : staysBelow depth front = true := by
  obtain ⟨rest, rfl⟩ := hfront
  fun_induction staysBelow depth front with
  | case1 => rfl
  | case2 depth name front ih => exact ih h
  | case3 depth front ih => exact ih h
  | case4 => cases h
  | case5 depth front ih => exact ih h
  | case6 => cases h

theorem exists_foldl_stepPlace (out : Location) (below : List Text)
    (h : staysBelow below.length steps = true) :
    ∃ names, steps.foldl stepPlace (out ++ below) = out ++ names := by
  induction steps generalizing below with
  | nil => exact ⟨below, rfl⟩
  | cons step steps ih =>
    cases step with
    | root => cases h
    | current => exact ih below h
    | normal name =>
      have hnext := ih (below ++ [name]) (by rwa [List.length_append])
      rwa [← List.append_assoc] at hnext
    | parent =>
      rcases List.eq_nil_or_concat below with rfl | ⟨below, last, rfl⟩
      · cases h
      · rw [List.concat_eq_append] at h ⊢
        rw [List.length_append, List.length_singleton] at h
        have hnext := ih below h
        rwa [List.foldl_cons, stepPlace, ← List.append_assoc, List.dropLast_concat]

theorem StaysIn.prefix_place (h : StaysIn base p) : base.place <+: p.place := by
  obtain ⟨steps, hp, hsteps⟩ := h
  obtain ⟨names, hnames⟩ := exists_foldl_stepPlace base.place [] hsteps
  rw [List.append_nil] at hnames
  have hplace : p.place = steps.foldl stepPlace base.place := by
    rw [place, hp, List.foldl_append]
    rfl
  rw [hplace]
  exact ⟨names, hnames.symm⟩

theorem staysIn_of_names (names : List Text)
    (h : p.components = base.components ++ names.map .normal) :
    StaysIn base p :=
  ⟨_, h, staysBelow_append_names 0 [] names⟩

/-! ## Above a path -/

private theorem prefix_of_mem_ancestorsUpTo {steps : Nat} (h : q ∈ ancestorsUpTo steps p) :
    q.components <+: p.components := by
  induction steps generalizing p with
  | zero =>
    rw [ancestorsUpTo, List.mem_singleton] at h
    rw [h]
  | succ steps ih =>
    rw [ancestorsUpTo] at h
    split at h
    · rename_i up hup
      rcases List.mem_cons.1 h with rfl | h
      · exact List.prefix_rfl
      · obtain ⟨step, hstep⟩ := components_of_parent? hup
        exact (ih h).trans ⟨[step], hstep.symm⟩
    · rw [List.mem_singleton.1 h]

/-- What is above a path has the first of its components. -/
theorem prefix_of_mem_ancestors (h : q ∈ p.ancestors) : q.components <+: p.components :=
  prefix_of_mem_ancestorsUpTo h

/-- A path above one that stays in the base stays in the base, or the way to the base leads
through it. -/
theorem StaysIn.of_above (h : StaysIn base p) (hq : q.components <+: p.components) :
    StaysIn base q ∨ base.LeadsThrough q.place := by
  obtain ⟨steps, hp, hsteps⟩ := h
  have hbase : base.components <+: p.components := ⟨steps, hp.symm⟩
  rcases List.prefix_or_prefix_of_prefix hq hbase with habove | ⟨front, hfront⟩
  · exact .inr ⟨_, habove, rfl⟩
  · left
    rw [hp, ← hfront, List.prefix_append_right_inj] at hq
    exact ⟨front, hfront.symm, staysBelow_front hsteps hq⟩

/-! ## Normal forms -/

private theorem foldl_stepPlace_foldStep (start : Location) (stack : List Component)
    (step : Component) :
    (foldStep stack step).reverse.foldl stepPlace start =
      stepPlace (stack.reverse.foldl stepPlace start) step := by
  cases step with
  | root => simp [foldStep]
  | current => rfl
  | normal name => simp [foldStep]
  | parent =>
    rcases foldStep_parent_cases stack with ⟨name, hname⟩ | ⟨below, hroot, hstay⟩ | hup
    · nth_rewrite 2 [hname]
      simp [stepPlace]
    · rw [hstay, hroot]
      simp [stepPlace]
    · rw [hup]
      simp

/-- Folding does not change where the steps lead. -/
theorem foldl_stepPlace_foldComponents (steps : List Component) (start : Location) :
    (foldComponents steps).foldl stepPlace start = steps.foldl stepPlace start := by
  have hstack : ∀ stack : List Component,
      (steps.foldl foldStep stack).reverse.foldl stepPlace start =
      steps.foldl stepPlace (stack.reverse.foldl stepPlace start) := by
    induction steps with
    | nil => intro stack; rfl
    | cons step steps ih =>
      intro stack
      rw [List.foldl_cons, ih, foldl_stepPlace_foldStep, List.foldl_cons]
  exact hstack []

/-- The normal form of an absolute path spells its location. -/
theorem components_normalize_of_isAbsolute (h : p.isAbsolute = true) :
    p.normalize.components = .root :: p.place.map .normal := by
  obtain ⟨names, _, hnames⟩ := exists_names_of_isAbsolute h
  have hplace : p.place = names := by
    rw [place, ← foldl_stepPlace_foldComponents, ← components_normalize, hnames, List.foldl_cons,
      foldl_stepPlace_names]
    rfl
  rw [hnames, hplace]

theorem startsWith_normalize_iff (hp : p.isAbsolute = true) (hbase : base.isAbsolute = true) :
    p.normalize.startsWith base.normalize = true ↔ base.place <+: p.place := by
  rw [startsWith, List.isPrefixOf_iff_prefix, components_normalize_of_isAbsolute hp,
    components_normalize_of_isAbsolute hbase, List.cons_prefix_cons, and_iff_right rfl]
  exact List.prefix_map_iff_of_injective fun _ _ h => Component.normal.inj h

/-- Absolute paths that lead to one location have one normal form. -/
theorem normalize_eq_of_place (hp : p.isAbsolute = true) (hq : q.isAbsolute = true)
    (h : p.place = q.place) : p.normalize = q.normalize := by
  rw [← normalize_normalize p, ← normalize_normalize q]
  apply normalize_congr
  rw [components_normalize_of_isAbsolute hp, components_normalize_of_isAbsolute hq, h]

theorem elsewhere_of_normalize_ne (hp : p.isAbsolute = true) (hq : q.isAbsolute = true)
    (h : p.normalize ≠ q.normalize) : Elsewhere p q := by
  intro t hsame
  rw [placeOf_eq_place t hp, placeOf_eq_place t hq] at hsame
  exact h (normalize_eq_of_place hp hq hsame)

end Path

namespace FileTree

variable {t t' : FileTree} {base p : Path} {paths : List Path}

/-! ## Trees that are the same outside -/

/-- Outside of the base everything is as it was, but for new directories on the way to the
base. -/
structure SameOutside (base : Path) (t t' : FileTree) : Prop where
  workingDirectory : t'.workingDirectory = t.workingDirectory
  nodes : ∀ place, ¬ base.place <+: place → t'.node? place = t.node? place ∨
    t.node? place = none ∧ t'.node? place = some .directory ∧ base.LeadsThrough place

theorem SameOutside.refl (base : Path) (t : FileTree) : SameOutside base t t :=
  ⟨rfl, fun _ _ => .inl rfl⟩

theorem growthInvariant_sameOutside (h : ∀ p ∈ paths, p.isAbsolute = true ∧
      (base.place <+: p.place ∨ base.LeadsThrough p.place)) :
    GrowthInvariant paths (SameOutside base t) := by
  intro t' p hp hne _ hfree hsame
  obtain ⟨habs, hplace⟩ := h p hp
  rw [Path.placeOf_eq_place t' habs] at hne hfree ⊢
  refine ⟨hsame.workingDirectory, fun place hout => ?_⟩
  rw [node?_set hne]
  split_ifs with hnew
  · -- The new directory lies outside, so it is on the way.
    subst hnew
    right
    refine ⟨?_, rfl, hplace.resolve_left hout⟩
    rcases hsame.nodes p.place hout with hkept | ⟨_, hthere, _⟩
    · rw [← hkept, hfree]
    · rw [hfree] at hthere
      cases hthere
  · exact hsame.nodes place hout

theorem writeInvariant_sameOutside
    (h : ∀ p ∈ paths, p.isAbsolute = true ∧ base.place <+: p.place) :
    WriteInvariant paths (SameOutside base t) := by
  intro t' text p hp hne _ _ hsame
  obtain ⟨habs, hplace⟩ := h p hp
  rw [Path.placeOf_eq_place t' habs] at hne ⊢
  refine ⟨hsame.workingDirectory, fun place hout => ?_⟩
  rw [node?_set hne, if_neg]
  · exact hsame.nodes place hout
  · rintro rfl
    exact hout hplace

theorem sameOutside_removeDirectory (h : base.isAbsolute = true) (t : FileTree) :
    SameOutside base t (stateAfter (removeDirectory base) t) := by
  refine ⟨?_, fun place hout => .inl (node?_removeDirectory ?_)⟩
  · rcases removeDirectory_cases t base with ⟨hafter, _⟩ | ⟨place, _, _, hafter | ⟨_, hafter⟩⟩
    · rw [hafter]
    · rw [hafter]
      rfl
    · rw [hafter]
      rfl
  · intro place' hplace _
    rw [locate_eq_placeOf hplace, Path.placeOf_eq_place t h]
    exact hout

end FileTree

end StyleBundle

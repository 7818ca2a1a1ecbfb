import StyleBundle.Proofs.Path.Clean

/-!
# Absolute paths

A path stays absolute when more is put after it, and so does the directory of an absolute path
that ends in a name.  The root is absolute too, but it lies in no directory.  The paths above an
absolute path are absolute (`Path.isAbsolute_of_mem_ancestors`).
-/

namespace StyleBundle

namespace Path

theorem isAbsolute_join {p : Path} (h : p.isAbsolute = true) (q : Path) :
    (p.join q).isAbsolute = true := by
  obtain ⟨text⟩ := p
  cases text with
  | nil => exact absurd h (by decide)
  | cons c rest =>
    rw [join]
    split_ifs with hq hend
    · exact hq
    · exact h
    · exact h

theorem isAbsolute_push {p : Path} (h : p.isAbsolute = true) (piece : Text) :
    (p.push piece).isAbsolute = true :=
  isAbsolute_join h ⟨piece⟩

theorem isAbsolute_foldl_push {p : Path} (h : p.isAbsolute = true) (pieces : List Text) :
    (pieces.foldl push p).isAbsolute = true := by
  induction pieces generalizing p with
  | nil => exact h
  | cons piece pieces ih => exact ih (isAbsolute_push h piece)

theorem isAbsolute_resolveIn {base : Path} (h : base.isAbsolute = true) (p : Path) :
    (base.resolveIn p).isAbsolute = true := by
  rw [resolveIn, isAbsolute_normalize]
  exact isAbsolute_join h p

theorem isAbsolute_congr {p q : Path} (h : p.components = q.components) :
    p.isAbsolute = q.isAbsolute := by
  rw [Bool.eq_iff_iff, isAbsolute_iff_mem, isAbsolute_iff_mem, h]

theorem text_ne_nil_of_isAbsolute {p : Path} (h : p.isAbsolute = true) : p.text ≠ [] := by
  intro hnil
  rw [isAbsolute, hnil] at h
  cases h

theorem isAbsolute_ofComponents_root (steps : List Component) :
    (ofComponents (.root :: steps)).isAbsolute = true := by
  rw [ofComponents_eq_foldl, List.map_cons, List.foldl_cons]
  exact isAbsolute_foldl_push (by decide) _

/-- Only a relative path can start with `.`. -/
theorem ne_current_of_isAbsolute {p : Path} (h : p.isAbsolute = true) {step : Component}
    (hstep : step ∈ p.components) : step ≠ .current := by
  rw [components_eq, leadComponents, if_pos h, List.singleton_append, List.mem_cons] at hstep
  rcases hstep with rfl | hstep
  · simp
  · rcases eq_parent_or_isName hstep with rfl | ⟨name, _, rfl⟩
    · simp
    · simp

private theorem foldl_foldStep_plain (steps stack : List Component)
    (h : ∀ step ∈ steps, step ≠ .parent ∧ step ≠ .current) :
    steps.foldl foldStep stack = steps.reverse ++ stack := by
  induction steps generalizing stack with
  | nil => rfl
  | cons step steps ih =>
    have hstep : foldStep stack step = step :: stack := by
      have hne := h step List.mem_cons_self
      cases step with
      | root => rfl
      | normal name => rfl
      | current => exact absurd rfl hne.2
      | parent => exact absurd rfl hne.1
    rw [List.foldl_cons, hstep, ih _ fun s hs => h s (List.mem_cons_of_mem step hs)]
    simp

/-- An absolute path without a step up is the same as its normal form. -/
theorem components_normalize_of_no_parent {p : Path} (h : p.isAbsolute = true)
    (hup : .parent ∉ p.components) : p.normalize.components = p.components := by
  have hplain : ∀ step ∈ p.components, step ≠ .parent ∧ step ≠ .current := fun step hstep =>
    ⟨fun hparent => hup (hparent ▸ hstep), ne_current_of_isAbsolute h hstep⟩
  rw [components_normalize, foldComponents, foldl_foldStep_plain p.components [] hplain]
  simp

/-- The normal form of an absolute path is a list of names below the root. -/
theorem exists_names_of_isAbsolute {p : Path} (h : p.isAbsolute = true) :
    ∃ names : List Text, (∀ name ∈ names, Component.IsName name) ∧
      p.normalize.components = .root :: names.map .normal := by
  rw [← isAbsolute_normalize, isAbsolute_iff_mem] at h
  have hnormal := normalSteps_normalize p
  generalize p.normalize.components = steps at h hnormal
  cases hnormal with
  | absolute names hnames => exact ⟨names, hnames, rfl⟩
  | relative ups names _ => simp at h

/-- The directory of an absolute path that ends in a name is absolute. -/
theorem isAbsolute_directory {p : Path} (h : p.isAbsolute = true) {name : Text}
    (hname : p.components.getLast? = some (.normal name)) : p.directory.isAbsolute = true := by
  rw [directory]
  cases hparent : p.parent? with
  | none =>
    rw [components_of_parent?_eq_none hparent, leadComponents, if_pos h] at hname
    cases hname
  | some up =>
    obtain ⟨step, hstep⟩ := components_of_parent? hparent
    rw [isAbsolute_iff_mem, hstep, List.mem_append, List.mem_singleton] at h
    rw [hstep, List.getLast?_concat, Option.some.injEq] at hname
    rw [Option.getD_some, isAbsolute_iff_mem]
    refine h.resolve_right ?_
    rw [hname]
    exact fun hroot => by cases hroot

/-- A joined path is absolute if one of its two parts is. -/
theorem isAbsolute_join_iff {p q : Path} :
    (p.join q).isAbsolute = true ↔ p.isAbsolute = true ∨ q.isAbsolute = true := by
  obtain ⟨text⟩ := p
  constructor
  · intro h
    rw [join] at h
    split_ifs at h with hq hend
    · exact .inr hq
    · cases text with
      | nil => exact .inr h
      | cons c rest => exact .inl h
    · cases text with
      | nil => exact absurd rfl hend
      | cons c rest => exact .inl h
  · rintro (hp | hq)
    · exact isAbsolute_join hp q
    · rw [join, if_pos hq]
      exact hq

theorem isAbsolute_of_parent? {p up : Path} (h : p.parent? = some up) :
    up.isAbsolute = p.isAbsolute := by
  cases habs : p.isAbsolute with
  | false =>
    obtain ⟨step, hstep⟩ := components_of_parent? h
    rw [Bool.eq_false_iff, ne_eq, isAbsolute_iff_mem] at habs ⊢
    intro hroot
    exact habs (hstep ▸ List.mem_append_left _ hroot)
  | true =>
    have hlead : p.lead = ['/'] := by rw [lead, if_pos habs]
    rw [parent?, hlead] at h
    split at h
    · cases h
      rfl
    · cases h

private theorem isAbsolute_of_mem_ancestorsUpTo {p q : Path} {steps : Nat}
    (h : q ∈ ancestorsUpTo steps p) : q.isAbsolute = p.isAbsolute := by
  induction steps generalizing p with
  | zero =>
    rw [ancestorsUpTo, List.mem_singleton] at h
    rw [h]
  | succ steps ih =>
    rw [ancestorsUpTo] at h
    split at h
    · rename_i up hup
      rcases List.mem_cons.1 h with rfl | h
      · rfl
      · rw [ih h, isAbsolute_of_parent? hup]
    · rw [List.mem_singleton.1 h]

/-- What is above a path is absolute if the path is. -/
theorem isAbsolute_of_mem_ancestors {p q : Path} (h : q ∈ p.ancestors) :
    q.isAbsolute = p.isAbsolute :=
  isAbsolute_of_mem_ancestorsUpTo h

end Path

end StyleBundle

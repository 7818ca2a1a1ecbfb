import StyleBundle.Proofs.Path.Absolute

/-!
# Joining to a normal path

The normal form of a path is canonical.  No piece of its text is a dot, no step up comes after a
name (`Path.Folded`), and a second normalizing changes nothing.

It does not matter when a path is normalized, before another path is joined to it or after that.
The argument is about the stack of folded components.  A relative path works on the stack that the
path in front of it left (`Path.foldl_foldStep_join`), and a path leaves the same stack as its
normal form (`Path.foldl_foldStep_normalize`).
-/

namespace StyleBundle

namespace Path

variable {p q : Path} {steps : List Component}

/-! ## Nothing left to fold -/

/-- A path without `.`, in which steps up come before names. -/
structure Folded (p : Path) : Prop where
  /-- The text has no piece that is a dot, be it at the start or between slashes. -/
  dot_notMem : ['.'] ∉ p.text.split '/'
  current_notMem : .current ∉ p.components
  parents_first : p.components.Pairwise fun step later => ∀ name, step = .normal name →
    later ≠ .parent

theorem NormalSteps.current_notMem (h : NormalSteps steps) : .current ∉ steps := by
  cases h with
  | absolute names _ => simp
  | relative ups names _ => simp

theorem NormalSteps.parents_first (h : NormalSteps steps) :
    steps.Pairwise fun step later => ∀ name, step = .normal name → later ≠ .parent := by
  have hnames : ∀ names : List Text, (names.map Component.normal).Pairwise
      fun step later => ∀ name, step = .normal name → later ≠ .parent := by
    intro names
    refine List.pairwise_map.2 (List.pairwise_of_forall fun first second name _ => ?_)
    simp
  cases h with
  | absolute names _ =>
    refine List.pairwise_cons.2 ⟨fun later _ name hroot => ?_, hnames names⟩
    cases hroot
  | relative ups names _ =>
    refine List.pairwise_append.2 ⟨List.pairwise_replicate.2 (.inr ?_), hnames names, ?_⟩
    · intro name hparent
      cases hparent
    · intro step hstep later _ name hname
      rw [List.eq_of_mem_replicate hstep] at hname
      cases hname

/-- The pieces of the text that normal components are spelled with. -/
theorem Spelled.dot_notMem {text : Text} (h : Spelled steps text) : ['.'] ∉ text.split '/' := by
  -- A piece that is a step up or a name counts, and a dot does not.
  have hcounts : ∀ s : Component, (s = .parent ∨ ∃ n, Component.IsName n ∧ s = .normal n) →
      s.text ≠ ['.'] := by
    intro s hs hdot
    have hidle := (Component.piece_of_step hs).2.2.1
    rw [hdot] at hidle
    cases hidle
  cases h with
  | root => decide
  | empty => decide
  | absolute name names h =>
    have hslash : ∀ n ∈ name :: names, '/' ∉ n := fun n hn => (h n hn).one_piece
    have hsplit := Text.split_append_slashedPieces [] hslash
    rw [List.nil_append] at hsplit
    rw [hsplit, List.mem_append, not_or]
    refine ⟨by decide, fun hdot => ?_⟩
    exact hcounts (.normal ['.']) (.inr ⟨['.'], h _ hdot, rfl⟩) rfl
  | relative step steps h =>
    have hpiece : ∀ s ∈ step :: steps, '/' ∉ s.text :=
      fun s hs => (Component.piece_of_step (h s hs)).1
    have hslash : ∀ piece ∈ steps.map Component.text, '/' ∉ piece := by
      intro piece hpiece'
      obtain ⟨s, hs, rfl⟩ := List.mem_map.1 hpiece'
      exact hpiece s (List.mem_cons_of_mem step hs)
    rw [Text.split_append_slashedPieces _ hslash,
      Text.split_of_notMem (hpiece step List.mem_cons_self),
      List.singleton_append, ← List.map_cons, List.mem_map]
    rintro ⟨s, hs, hdot⟩
    exact hcounts s (h s hs) hdot

theorem folded_normalize (p : Path) : p.normalize.Folded where
  dot_notMem := (spelled_normalize p).dot_notMem
  current_notMem := (normalSteps_normalize p).current_notMem
  parents_first := (normalSteps_normalize p).parents_first

theorem parent_notMem_normalize (h : p.isAbsolute = true) : .parent ∉ p.normalize.components := by
  obtain ⟨names, _, hnames⟩ := exists_names_of_isAbsolute h
  simp [hnames]

/-! ## The stack of a joined path -/

/-- A path leaves the same stack as its normal form. -/
theorem foldl_foldStep_normalize (p : Path) :
    p.normalize.components.foldl foldStep [] = p.components.foldl foldStep [] := by
  have hfold : foldComponents p.normalize.components = foldComponents p.components := by
    rw [(normalSteps_normalize p).fold, components_normalize]
  exact List.reverse_injective hfold

/-- A lead that is not the root leaves nothing on the stack. -/
theorem foldl_foldStep_relative (hq : q.isAbsolute = false) (stack : List Component) :
    q.components.foldl foldStep stack =
      ((q.text.split '/').filterMap Component.ofPiece?).foldl foldStep stack := by
  rw [components_eq, List.foldl_append]
  rcases lead_cases q with ⟨habs, _⟩ | ⟨_, _, hlead, _⟩ | ⟨_, _, hlead, _⟩
  · rw [hq] at habs
    cases habs
  · rw [hlead]
    rfl
  · rw [hlead]
    rfl

/-- A relative path works on the stack that the path in front of it left. -/
theorem foldl_foldStep_join (p : Path) (hq : q.isAbsolute = false) :
    (p.join q).components.foldl foldStep [] =
      q.components.foldl foldStep (p.components.foldl foldStep []) := by
  rw [foldl_foldStep_relative hq]
  by_cases hp : p.text = []
  · -- Nothing stands in front, so the joined path is the second one.
    obtain ⟨text⟩ := p
    simp only at hp
    subst hp
    have hempty : (Path.mk []).components = [] := by decide
    rw [hempty, List.foldl_nil, ← foldl_foldStep_relative hq, join, if_neg (by simp [hq]),
      if_pos (by simp)]
    rfl
  · rw [components_join hp hq, List.foldl_append]

/-- Paths that leave the same stack have one normal form. -/
theorem normalize_eq_of_stack
    (h : p.components.foldl foldStep [] = q.components.foldl foldStep []) :
    p.normalize = q.normalize := by
  rw [normalize, normalize, foldComponents, foldComponents, h]

/-- Normalizing before joining changes nothing for a path that is normalized after it. -/
theorem normalize_normalize_join (p q : Path) :
    (p.normalize.join q).normalize = (p.join q).normalize := by
  cases hq : q.isAbsolute with
  | true => rw [join, if_pos hq, join, if_pos hq]
  | false =>
    apply normalize_eq_of_stack
    rw [foldl_foldStep_join _ hq, foldl_foldStep_join _ hq, foldl_foldStep_normalize]

/-! ## The canonical form -/

/-- The normal form of a path is a canonical spelling that can be joined to in place of the
path. -/
theorem normalize_is_canonical (p : Path) :
    p.normalize.Folded ∧
      (p.isAbsolute = true → .parent ∉ p.normalize.components) ∧
      p.normalize.isAbsolute = p.isAbsolute ∧
      p.normalize.normalize.text = p.normalize.text ∧
      ∀ q : Path, (p.join q).normalize.text = (p.normalize.join q).normalize.text := by
  refine ⟨folded_normalize p, parent_notMem_normalize, isAbsolute_normalize p, ?_, fun q => ?_⟩
  · rw [normalize_normalize]
  · rw [normalize_normalize_join]

/-- Steps up past the root, from an absolute path. -/
theorem crooked_is_canonical :
    (Path.mk "/a/.././/../b/".toList).isAbsolute = true ∧
      .parent ∉ (Path.mk "/a/.././/../b/".toList).normalize.components ∧
      ((Path.mk "/a/.././/../b/".toList).join ⟨"./../../c/.".toList⟩).normalize.text =
        ((Path.mk "/b".toList).join ⟨"./../../c/.".toList⟩).normalize.text := by
  obtain ⟨-, hparent, -, -, hjoin⟩ := normalize_is_canonical ⟨"/a/.././/../b/".toList⟩
  have hnormal : (Path.mk "/a/.././/../b/".toList).normalize = ⟨"/b".toList⟩ := by decide
  rw [← hnormal]
  exact ⟨rfl, hparent rfl, hjoin _⟩

end Path

end StyleBundle

import StyleBundle.Proofs.FileTree.Alike

/-!
# Trees that grow

While files are written, a tree gets new directories, and texts at the locations that are written
to (`FileTree.Grown`).  A path without a step up that names an entry of the grown tree names the
same entry of the tree it has grown from, unless the entry is new or was written
(`FileTree.Grown.lookup_of_node?`).  For that the first tree has to be closed: each of its entries
lies in a directory (`FileTree.Closed`).
-/

namespace StyleBundle

namespace FileTree

variable {s t : FileTree} {place : Location} {node : Node} {p : Path} {paths : List Path}
  {written : List Location}

/-! ## Closed trees -/

/-- Every entry lies in a directory. -/
def Closed (t : FileTree) : Prop :=
  ∀ entry ∈ t.entries, t.isDirectoryAt entry.1.dropLast = true

instance (t : FileTree) : Decidable t.Closed :=
  inferInstanceAs (Decidable (∀ entry ∈ t.entries, t.isDirectoryAt entry.1.dropLast = true))

theorem isSome_node?_iff :
    (t.node? place).isSome = true ↔ place = [] ∨ ∃ entry ∈ t.entries, entry.1 = place := by
  by_cases hnil : place = []
  · simp [node?, hnil]
  · simp [node?, hnil, Option.isSome_map, List.find?_isSome]

theorem closed_iff :
    t.Closed ↔ ∀ place, (t.node? place).isSome = true →
    t.isDirectoryAt place.dropLast = true := by
  constructor
  · intro h place hplace
    rcases isSome_node?_iff.1 hplace with rfl | ⟨entry, hentry, rfl⟩
    · exact isDirectoryAt_nil t
    · exact h entry hentry
  · intro h entry hentry
    exact h entry.1 (isSome_node?_iff.2 (.inr ⟨entry, hentry, rfl⟩))

theorem isSome_of_isDirectoryAt (h : t.isDirectoryAt place = true) :
    (t.node? place).isSome = true := by
  rw [isDirectoryAt, beq_iff_eq] at h
  rw [h]
  rfl

/-- Everything above an entry of a closed tree is a directory. -/
theorem Closed.isDirectoryAt_of_above (h : t.Closed) {names : List Text} (hne : names ≠ [])
    (hthere : (t.node? (place ++ names)).isSome = true) : t.isDirectoryAt place = true := by
  induction names using List.reverseRecOn with
  | nil => exact absurd rfl hne
  | append_singleton names name ih =>
    have hparent := closed_iff.1 h _ hthere
    rw [← List.append_assoc, List.dropLast_concat] at hparent
    by_cases hnames : names = []
    · rwa [hnames, List.append_nil] at hparent
    · exact ih hnames (isSome_of_isDirectoryAt hparent)

/-- An entry in a directory leaves the tree closed, if no directory is replaced by a file. -/
theorem Closed.set (h : t.Closed) (hne : place ≠ [])
    (hparent : t.isDirectoryAt place.dropLast = true)
    (hdir : t.isDirectoryAt place = true → node = .directory) : (t.set place node).Closed := by
  have hkept := (extends_set hne hdir).directories
  rw [closed_iff] at h ⊢
  intro other hother
  rw [node?_set hne] at hother
  split_ifs at hother with hsame
  · rw [hsame]
    exact hkept _ hparent
  · exact hkept _ (h other hother)

theorem growthInvariant_closed (paths : List Path) : GrowthInvariant paths Closed :=
  fun _ _ _ hne hparent _ h => h.set hne hparent fun _ => rfl

/-- What is taken away together with all that lies below it leaves no entry without its
directory. -/
private theorem Closed.of_kept (h : s.Closed) (keep : Location → Prop) [DecidablePred keep]
    (hkeep : ∀ place, keep place → keep place.dropLast)
    (hnode : ∀ place, t.node? place = if keep place then s.node? place else none) : t.Closed := by
  rw [closed_iff] at h ⊢
  intro place hplace
  rw [hnode] at hplace
  split_ifs at hplace with hkept
  · rw [isDirectoryAt, hnode, if_pos (hkeep place hkept)]
    exact h place hplace
  · cases hplace

private theorem not_prefix_dropLast {other : Location} (h : ¬ place <+: other) :
    ¬ place <+: other.dropLast :=
  fun hbelow => h (hbelow.trans (List.dropLast_prefix other))

theorem Closed.removeDirectory (h : t.Closed) (p : Path) :
    (stateAfter (removeDirectory p) t).Closed := by
  have hemptied : ∀ place, (t.emptied place).Closed := by
    intro place
    refine h.of_kept _ (fun other hother => ?_) (node?_emptied t place)
    rcases hother with rfl | hother
    · by_cases hnil : other = []
      · simp [hnil]
      · right
        intro hbelow
        have hlength := hbelow.length_le
        have hpos := List.length_pos_iff.2 hnil
        rw [List.length_dropLast] at hlength
        omega
    · exact .inr (not_prefix_dropLast hother)
  rcases removeDirectory_cases t p with ⟨hafter, _⟩ | ⟨place, _, _, hafter | ⟨hne, hafter⟩⟩
  · rw [hafter]
    exact h
  · rw [hafter]
    exact hemptied place
  · rw [hafter]
    refine (hemptied place).of_kept (fun other => ¬ place <+: other)
      (fun other => not_prefix_dropLast) fun other => ?_
    rw [node?_erased _ hne]
    by_cases hbelow : place <+: other <;> simp [hbelow]

/-! ## Trees that have grown -/

/-- Every location is as it was, or has a new directory, or is one of those that were written to
and holds a text. -/
structure Grown (written : List Location) (s t : FileTree) : Prop where
  workingDirectory : t.workingDirectory = s.workingDirectory
  length_le : s.entries.length ≤ t.entries.length
  nodes : ∀ place, t.node? place = s.node? place ∨
    s.node? place = none ∧ t.node? place = some .directory ∨
    place ∈ written ∧ s.isDirectoryAt place = false ∧
    ∃ text, t.node? place = some (.file (.text text))

theorem Grown.refl (written : List Location) (t : FileTree) : Grown written t t :=
  ⟨rfl, Nat.le_refl _, fun _ => .inl rfl⟩

theorem Grown.extends (h : Grown written s t) : Extends s t where
  workingDirectory := h.workingDirectory
  entries place hnone := by
    rcases h.nodes place with hsame | ⟨hfree, _⟩ | ⟨_, _, text, htext⟩
    · rw [← hsame, hnone]
    · exact hfree
    · rw [htext] at hnone
      cases hnone
  directories place hdir := by
    rcases h.nodes place with hsame | ⟨_, hnew⟩ | ⟨_, hfile, _⟩
    · rw [isDirectoryAt, hsame]
      exact hdir
    · rw [isDirectoryAt, hnew]
      rfl
    · rw [hfile] at hdir
      cases hdir

theorem Grown.placeOf_eq (h : Grown written s t) (steps : List Component) :
    t.placeOf steps = s.placeOf steps := by
  rw [placeOf, placeOf, h.workingDirectory]

/-- At most one entry is replaced. -/
theorem Unique.length_le_set (h : t.Unique) (place : Location) (node : Node) :
    t.entries.length ≤ (t.set place node).entries.length := by
  have hcount : t.entries.countP (fun entry => entry.1 == place) ≤ 1 := by
    have hone := List.nodup_iff_count_le_one.1 h place
    rwa [List.count, List.countP_map] at hone
  have hsplit := List.length_eq_countP_add_countP
    (fun entry : Location × Node => entry.1 == place) (l := t.entries)
  rw [FileTree.set, List.length_append, List.length_singleton, ← List.countP_eq_length_filter]
  simp only [bne, Bool.not_eq_true, Bool.decide_eq_false] at hsplit ⊢
  omega

/-- A new directory makes the tree grow. -/
theorem Grown.set_directory (h : Grown written s t) (hunique : t.Unique) (hne : place ≠ [])
    (hfree : t.node? place = none) : Grown written s (t.set place .directory) := by
  refine ⟨h.workingDirectory, h.length_le.trans (hunique.length_le_set _ _), fun other => ?_⟩
  rw [node?_set hne]
  split_ifs with hsame
  · rw [hsame]
    exact .inr (.inl ⟨h.extends.entries place hfree, rfl⟩)
  · exact h.nodes other

/-- So does a text at one of the locations. -/
theorem Grown.set_text (h : Grown written s t) (hunique : t.Unique) (hne : place ≠ [])
    (hplace : place ∈ written) (hdir : t.isDirectoryAt place = false) (text : Text) :
    Grown written s (t.set place (.file (.text text))) := by
  refine ⟨h.workingDirectory, h.length_le.trans (hunique.length_le_set _ _), fun other => ?_⟩
  rw [node?_set hne]
  split_ifs with hsame
  · subst hsame
    refine .inr (.inr ⟨hplace, ?_, text, rfl⟩)
    rw [Bool.eq_false_iff]
    intro hold
    rw [h.extends.directories other hold] at hdir
    cases hdir
  · exact h.nodes other

/-- An entry that was there before is named by the same paths. -/
theorem Grown.lookup_of_node? (h : Grown written s t) (hclosed : s.Closed)
    (habs : p.isAbsolute = true) (hup : .parent ∉ p.components) (hlookup : t.lookup p = .ok node)
    (hnode : s.node? (s.placeOf p.components) = some node) : s.lookup p = .ok node := by
  refine lookup_of_kept habs hup hlookup fun above other habove hother => ?_
  rw [h.placeOf_eq] at habove
  obtain ⟨names, hnames⟩ := habove
  by_cases hend : names = []
  · obtain ⟨place, hlocate, hthere⟩ := exists_place_of_lookup hlookup
    rw [hend, List.append_nil] at hnames
    rw [hnames] at hother ⊢
    rw [locate_eq_placeOf hlocate, h.placeOf_eq, hother] at hthere
    rw [hnode, hthere]
  · have hdir : s.isDirectoryAt above = true := by
      refine hclosed.isDirectoryAt_of_above hend ?_
      rw [hnames, hnode]
      rfl
    have hdir' := h.extends.directories above hdir
    rw [isDirectoryAt, beq_iff_eq] at hdir hdir'
    rw [hdir, ← hother, hdir']

end FileTree

end StyleBundle

import StyleBundle.FileTree.Update
import StyleBundle.Proofs.FileTree.Locate
import StyleBundle.Proofs.Steps

/-!
# What changing a file tree leaves as it is

* `FileTree.node?_set`, `FileTree.node?_emptied` and `FileTree.node?_erased` tell every entry
  after a change of the entries.
* Making directories only adds directories at free places (`FileTree.keeps_makeDirectories`).
* Removing a directory only takes away what lies at or below its location
  (`FileTree.removeDirectory_cases`).
-/

namespace StyleBundle

namespace FileTree

variable {t : FileTree}

/-! ## Entries after a change -/

/-- The entry at a location when only the entries at some locations are kept. -/
private theorem node?_filter (t : FileTree) (keep : Location → Bool) {place : Location}
    (h : place ≠ []) :
    node? { t with entries := t.entries.filter fun entry => keep entry.1 } place =
      if keep place then t.node? place else none := by
  rw [node?, if_neg h, node?, if_neg h]
  simp only [List.find?_filter]
  split_ifs with hkeep
  · congr 2
    funext entry
    by_cases hplace : entry.1 = place
    · simp [hplace, hkeep]
    · simp [hplace]
  · rw [Option.map_eq_none_iff, List.find?_eq_none]
    intro entry _
    by_cases hplace : entry.1 = place
    · simp [hplace, hkeep]
    · simp [hplace]

theorem node?_set {place : Location} (hplace : place ≠ []) (node : Node) (other : Location) :
    (t.set place node).node? other = if other = place then some node else t.node? other := by
  by_cases hother : other = []
  · subst hother
    rw [if_neg hplace.symm]
    rfl
  · have hrest := node?_filter t (fun l => l != place) hother
    rw [node?, if_neg hother] at hrest
    rw [node?, if_neg hother, set, List.find?_append, Option.map_or]
    refine (congrArg (Option.or · _) hrest).trans ?_
    by_cases heq : other = place
    · simp [heq]
    · simp [heq, Ne.symm heq]

private theorem isPrefixOf_eq_decide (place other : Location) :
    place.isPrefixOf other = decide (place <+: other) := by
  rw [Bool.eq_iff_iff, List.isPrefixOf_iff_prefix, decide_eq_true_iff]

theorem node?_emptied (t : FileTree) (place other : Location) :
    (t.emptied place).node? other =
      if other = place ∨ ¬ place <+: other then t.node? other else none := by
  by_cases hother : other = []
  · subst hother
    have hkeep : [] = place ∨ ¬ place <+: ([] : Location) := by
      rw [List.prefix_nil]
      exact (em (place = [])).imp Eq.symm id
    rw [if_pos hkeep]
    rfl
  · refine (node?_filter t (fun l => l == place || !place.isPrefixOf l) hother).trans ?_
    simp [isPrefixOf_eq_decide]

theorem node?_erased (t : FileTree) {place : Location} (hplace : place ≠ []) (other : Location) :
    (t.erased place).node? other = if place <+: other then none else t.node? other := by
  by_cases hother : other = []
  · subst hother
    rw [if_neg (by rwa [List.prefix_nil])]
    rfl
  · refine (node?_filter t (fun l => !place.isPrefixOf l) hother).trans ?_
    by_cases hprefix : place <+: other <;> simp [isPrefixOf_eq_decide, hprefix]

/-! ## The last piece of a path -/

/-- The last piece that is not empty has only empty pieces behind it. -/
theorem exists_split_of_cutLastPiece {p : Path} {front : List Text} {piece : Text}
    {slashes : Bool} (h : cutLastPiece p = (front, some piece, slashes)) :
    piece ≠ [] ∧ ∃ empties : List Text, (∀ e ∈ empties, e = []) ∧
      p.text.split '/' = front ++ piece :: empties := by
  rw [cutLastPiece] at h
  split at h
  · rename_i last before hbackward
    cases h
    have hcut := List.takeWhile_append_dropWhile (p := (· == []))
      (l := (p.text.split '/').reverse)
    rw [hbackward] at hcut
    refine ⟨?_, ((p.text.split '/').reverse.takeWhile (· == [])).reverse, ?_, ?_⟩
    · have hlast := List.head?_dropWhile_not (· == []) (p.text.split '/').reverse
      rw [hbackward] at hlast
      simpa using hlast
    · intro e he
      simpa using List.mem_takeWhile_imp (List.mem_reverse.1 he)
    · have hsplit := congrArg List.reverse hcut
      rw [List.reverse_append, List.reverse_cons, List.reverse_reverse,
        List.append_assoc] at hsplit
      exact hsplit.symm
  · cases h

theorem foldl_stepPlace_leadComponents (t : FileTree) (p : Path) :
    p.leadComponents.foldl stepPlace (t.start p) = t.start p := by
  rcases Path.lead_cases p with ⟨habs, _, hlead, _⟩ | ⟨_, _, hlead, _⟩ | ⟨_, _, hlead, _⟩
  · rw [hlead, start, if_pos habs]
    rfl
  · rw [hlead]
    rfl
  · rw [hlead]
    rfl

/-- A path whose last piece is a name leads to that name in the directory of the piece. -/
theorem placeOf_of_parentPlace {p : Path} {front : List Text} {piece : Text} {slashes : Bool}
    {parent : Location} (hcut : cutLastPiece p = (front, some piece, slashes))
    (hparent : t.parentPlace p front = .ok parent) (hdot : piece ≠ ['.'])
    (hup : piece ≠ ['.', '.']) : t.placeOf p.components = parent ++ [piece] := by
  obtain ⟨hne, empties, hempties, hsplit⟩ := exists_split_of_cutLastPiece hcut
  obtain ⟨origin, horigin, h⟩ := bind_eq_ok_iff.1 hparent
  obtain ⟨place, hwalk, h⟩ := bind_eq_ok_iff.1 h
  split_ifs at h
  cases h
  obtain ⟨_, rfl⟩ := origin_eq_ok_iff.1 horigin
  have hidle : Component.idle piece = false := by simp [Component.idle, hne, hdot]
  have hname : Component.ofPiece? piece = some (.normal piece) :=
    ((Component.ofPiece?_cases hidle).resolve_left fun h => hup h.1).2
  have hrest : empties.filterMap Component.ofPiece? = [] := by
    rw [List.filterMap_eq_nil_iff]
    intro e he
    rw [hempties e he]
    rfl
  rw [placeOf_components, Path.components_eq, List.foldl_append, foldl_stepPlace_leadComponents,
    hsplit, List.filterMap_append, List.filterMap_cons_some hname, hrest, List.foldl_append,
    ← (follows_of_walk hwalk).eq_foldl]
  rfl

/-! ## Making directories -/

/-- A property of trees that new directories keep, if some paths lead there.  They are made at
free places in directories. -/
def GrowthInvariant (paths : List Path) (P : FileTree → Prop) : Prop :=
  ∀ t, ∀ p ∈ paths, t.placeOf p.components ≠ [] →
    t.isDirectoryAt (t.placeOf p.components).dropLast = true →
    t.node? (t.placeOf p.components) = none → P t → P (t.set (t.placeOf p.components) .directory)

variable {P : FileTree → Prop} {paths : List Path}

theorem growthInvariant_node? (paths : List Path) (place : Location) (node : Node) :
    GrowthInvariant paths fun t => t.node? place = some node := by
  intro t p _ hnew _ hfree h
  rw [node?_set hnew, if_neg, h]
  rintro rfl
  rw [hfree] at h
  cases h

theorem growthInvariant_no_file (paths : List Path) (place : Location) :
    GrowthInvariant paths fun t => ∀ content, t.node? place ≠ some (.file content) := by
  intro t p _ hnew _ _ h content
  rw [node?_set hnew]
  split_ifs
  · simp
  · exact h content

theorem WellNamed.set {place : Location} (h : t.WellNamed)
    (hplace : ∀ name ∈ place, Component.IsName name) (node : Node) :
    (t.set place node).WellNamed := by
  refine ⟨fun entry hentry name hname => ?_, h.workingDirectory⟩
  rcases List.mem_append.1 hentry with hentry | hentry
  · exact h.entries entry (List.mem_of_mem_filter hentry) name hname
  · rw [List.mem_singleton.1 hentry] at hname
    exact hplace name hname

theorem growthInvariant_wellNamed (paths : List Path) : GrowthInvariant paths WellNamed :=
  fun _ _ _ _ _ _ h => h.set (fun _ hname => h.isName_of_mem_placeOf hname) _

theorem isDirectoryAt_of_parentPlace {p : Path} {front : List Text} {parent : Location}
    (h : t.parentPlace p front = .ok parent) : t.isDirectoryAt parent = true := by
  obtain ⟨origin, _, h⟩ := bind_eq_ok_iff.1 h
  obtain ⟨place, _, h⟩ := bind_eq_ok_iff.1 h
  split_ifs at h with hdir
  cases h
  exact hdir

/-- A directory is made at a place that is free, in a directory. -/
theorem directoryPlace_eq {p : Path} {place : Location} (h : t.directoryPlace p = .ok place) :
    place ≠ [] ∧ place = t.placeOf p.components ∧ t.isDirectoryAt place.dropLast = true ∧
      t.node? place = none := by
  rw [directoryPlace] at h
  generalize hcut : cutLastPiece p = cut at h
  obtain ⟨front, last, slashes⟩ := cut
  obtain ⟨parent, hparent, h⟩ := bind_eq_ok_iff.1 h
  cases last with
  | none => cases h
  | some piece =>
    simp only [Bool.or_eq_true, decide_eq_true_eq] at h
    split_ifs at h with hdots _ hfree
    cases h
    rw [not_or] at hdots
    refine ⟨by simp, (placeOf_of_parentPlace hcut hparent hdots.1 hdots.2).symm,
      ?_, by simpa using hfree⟩
    rw [List.dropLast_concat]
    exact isDirectoryAt_of_parentPlace hparent

theorem keeps_makeDirectory (hP : GrowthInvariant paths P) {p : Path} (hp : p ∈ paths) :
    Keeps P (makeDirectory p) := by
  intro t h
  rw [stateAfter, makeDirectory]
  cases hplace : t.directoryPlace p with
  | error cause => exact h
  | ok place =>
    obtain ⟨hne, rfl, hparent, hfree⟩ := directoryPlace_eq hplace
    exact hP t p hp hne hparent hfree h

theorem keeps_makeChain (hP : GrowthInvariant paths P) {chain : List Path}
    (hchain : chain ⊆ paths) :
    Keeps P (makeChain chain) := by
  induction chain with
  | nil => exact keeps_pure ()
  | cons p above ih =>
    rw [List.cons_subset] at hchain
    replace ih := ih hchain.2
    intro t h
    have hmake := keeps_makeDirectory hP hchain.1
    rw [stateAfter]
    generalize hrun : makeChain (p :: above) t = outcome
    rw [makeChain] at hrun
    beta_reduce at hrun
    split at hrun
    · subst hrun
      exact h
    · split at hrun
      · rename_i hfirst
        subst hrun
        exact hmake.of_ok h hfirst
      · -- Something above is missing.  It is made, and then the directory is tried again.
        rename_i hfirst
        have hmissing := hmake.of_error h hfirst
        split at hrun
        · rename_i habove
          have hthere := ih.of_ok hmissing habove
          split at hrun
          · rename_i hagain
            subst hrun
            exact hmake.of_ok hthere hagain
          · rename_i hagain
            have hkept := hmake.of_error hthere hagain
            split at hrun
            · subst hrun
              exact hkept
            · subst hrun
              exact hkept
        · rename_i habove
          subst hrun
          exact ih.of_error hmissing habove
      · rename_i hfirst
        have hkept := hmake.of_error h hfirst
        split at hrun
        · subst hrun
          exact hkept
        · subst hrun
          exact hkept

theorem keeps_makeDirectories {p : Path} (hP : GrowthInvariant p.ancestors P) :
    Keeps P (makeDirectories p) :=
  keeps_makeChain hP (List.Subset.refl _)

/-! ## Removing a directory -/

theorem removalPlace_eq {p : Path} {place : Location} (h : t.removalPlace p = .ok place) :
    place ≠ [] ∧ place = t.placeOf p.components := by
  rw [removalPlace] at h
  generalize hcut : cutLastPiece p = cut at h
  obtain ⟨front, last, slashes⟩ := cut
  obtain ⟨parent, hparent, h⟩ := bind_eq_ok_iff.1 h
  cases last with
  | none => cases h
  | some piece =>
    simp only at h
    split_ifs at h with hdot hup
    cases h
    exact ⟨by simp, (placeOf_of_parentPlace hcut hparent hdot hup).symm⟩

/-- What removing a directory does to the tree. -/
theorem removeDirectory_cases (t : FileTree) (p : Path) :
    (stateAfter (removeDirectory p) t = t ∧ t.isDirectory p = false) ∨
      ∃ place, t.locate p = .ok place ∧ t.isDirectoryAt place = true ∧
        (stateAfter (removeDirectory p) t = t.emptied place ∨
          place ≠ [] ∧ stateAfter (removeDirectory p) t = (t.emptied place).erased place) := by
  rw [stateAfter]
  generalize hrun : removeDirectory p t = outcome
  rw [removeDirectory] at hrun
  split at hrun
  · rename_i cause hlocate
    subst hrun
    refine .inl ⟨rfl, ?_⟩
    rw [isDirectory, lookup, hlocate]
    rfl
  · rename_i place hlocate
    split at hrun
    · rename_i hdir
      refine .inr ⟨place, hlocate, hdir, ?_⟩
      simp only at hrun
      split at hrun
      · -- The bare directory is removed under the location that the path led to.
        rename_i place' hremoval
        obtain ⟨hne, hplace'⟩ := removalPlace_eq hremoval
        have hsame : place' = place := hplace'.trans (locate_eq_placeOf hlocate).symm
        subst hrun hsame
        exact .inr ⟨hne, rfl⟩
      · subst hrun
        exact .inl rfl
      · subst hrun
        exact .inl rfl
    · rename_i hdir
      subst hrun
      refine .inl ⟨rfl, ?_⟩
      rw [← Bool.not_eq_true, isDirectory_iff]
      rintro ⟨other, hother, hdir'⟩
      rw [hlocate] at hother
      cases hother
      exact hdir hdir'

/-- What does not lie at or below the directory stays. -/
theorem node?_removeDirectory {p : Path} {other : Location}
    (h : ∀ place, t.locate p = .ok place → t.isDirectoryAt place = true → ¬ place <+: other) :
    (stateAfter (removeDirectory p) t).node? other = t.node? other := by
  rcases removeDirectory_cases t p with ⟨hsame, _⟩ | ⟨place, hplace, hdir, hafter⟩
  · rw [hsame]
  · have hout := h place hplace hdir
    have hemptied : (t.emptied place).node? other = t.node? other := by
      rw [node?_emptied, if_pos (.inr hout)]
    rcases hafter with hafter | ⟨hne, hafter⟩
    · rw [hafter, hemptied]
    · rw [hafter, node?_erased _ hne, if_neg hout, hemptied]

/-- No file lies at or below a directory that was removed. -/
theorem no_file_removeDirectory {p : Path} {place other : Location}
    (hplace : t.locate p = .ok place) (hdir : t.isDirectoryAt place = true)
    (hbelow : place <+: other) (content : Content) :
    (stateAfter (removeDirectory p) t).node? other ≠ some (.file content) := by
  rcases removeDirectory_cases t p with ⟨_, hnone⟩ | ⟨place', hplace', _, hafter⟩
  · rw [isDirectory_iff.2 ⟨place, hplace, hdir⟩] at hnone
    cases hnone
  · rw [hplace] at hplace'
    cases hplace'
    rcases hafter with hafter | ⟨hne, hafter⟩
    · rw [hafter, node?_emptied]
      split_ifs with hother
      · obtain rfl := hother.resolve_right (not_not.2 hbelow)
        rw [isDirectoryAt, beq_iff_eq] at hdir
        rw [hdir]
        simp
      · simp
    · rw [hafter, node?_erased _ hne, if_pos hbelow]
      simp

/-- Removing a directory leaves some of the entries. -/
theorem exists_filter_removeDirectory (t : FileTree) (p : Path) : ∃ keep : Location × Node → Bool,
    stateAfter (removeDirectory p) t = { t with entries := t.entries.filter keep } := by
  rcases removeDirectory_cases t p with ⟨hafter, _⟩ | ⟨place, _, _, hafter | ⟨_, hafter⟩⟩
  · exact ⟨fun _ => true, by rw [hafter, List.filter_true]⟩
  · exact ⟨_, hafter⟩
  · rw [erased, emptied, List.filter_filter] at hafter
    exact ⟨_, hafter⟩

theorem wellNamed_removeDirectory (h : t.WellNamed) (p : Path) :
    (stateAfter (removeDirectory p) t).WellNamed := by
  obtain ⟨keep, hafter⟩ := exists_filter_removeDirectory t p
  rw [hafter]
  exact ⟨fun entry hentry => h.entries entry (List.mem_of_mem_filter hentry), h.workingDirectory⟩

end FileTree

end StyleBundle

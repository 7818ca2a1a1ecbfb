import StyleBundle.Proofs.FileTree.Update

/-!
# Files that are written

Writing a file changes one location, the one that the path leads to, and never a directory there
(`FileTree.writePlace_eq`).  So every path that led to an entry still leads to it
(`FileTree.Extends.locate`), and an entry elsewhere is found as before
(`FileTree.writeInvariant_lookup`).  What was written is found under the path
(`FileTree.lookup_write`), and so is a directory that was made
(`FileTree.isDirectory_makeDirectories`).
-/

namespace StyleBundle

namespace FileTree

variable {t t' : FileTree} {p : Path}

/-! ## Trees with more in them -/

/-- Every entry is still there, and every directory is still a directory. -/
structure Extends (t t' : FileTree) : Prop where
  workingDirectory : t'.workingDirectory = t.workingDirectory
  entries : ∀ place, t'.node? place = none → t.node? place = none
  directories : ∀ place, t.isDirectoryAt place = true → t'.isDirectoryAt place = true

theorem extends_set {place : Location} {node : Node} (hne : place ≠ [])
    (h : t.isDirectoryAt place = true → node = .directory) : Extends t (t.set place node) := by
  refine ⟨rfl, fun other hother => ?_, fun other hother => ?_⟩
  · rw [node?_set hne] at hother
    split_ifs at hother
    exact hother
  · rw [isDirectoryAt, node?_set hne]
    split_ifs with hsame
    · subst hsame
      rw [h hother]
      rfl
    · exact hother

theorem Extends.walk (h : Extends t t') {place last : Location} {pieces : List Text}
    (hwalk : t.walk place pieces = .ok last) : t'.walk place pieces = .ok last := by
  induction pieces generalizing place with
  | nil => exact hwalk
  | cons piece pieces ih =>
    have hdir : t.isDirectoryAt place = true := by
      rw [FileTree.walk] at hwalk
      split_ifs at hwalk with hdir <;> simpa using hdir
    simp only [FileTree.walk, hdir, h.directories place hdir, Bool.not_true, Bool.false_eq_true,
      if_false, Option.isNone_iff_eq_none] at hwalk ⊢
    split_ifs at hwalk ⊢ with hidle hup hlong hnone hnone'
    · exact ih hwalk
    · exact ih hwalk
    · exact absurd (h.entries _ hnone) hnone'
    · exact ih hwalk

theorem Extends.origin (h : Extends t t') {place : Location} (horigin : t.origin p = .ok place) :
    t'.origin p = .ok place := by
  rw [origin_eq_ok_iff] at horigin ⊢
  obtain ⟨husable, rfl⟩ := horigin
  have hstart : t'.start p = t.start p := by rw [start, start, h.workingDirectory]
  refine ⟨⟨husable.no_nul, husable.ne_nil, husable.short, ?_⟩, hstart.symm⟩
  rw [hstart]
  exact h.directories _ husable.start_directory

theorem Extends.locate (h : Extends t t') {place : Location} (hplace : t.locate p = .ok place) :
    t'.locate p = .ok place := by
  obtain ⟨origin, horigin, hwalk⟩ := bind_eq_ok_iff.1 hplace
  exact bind_eq_ok_iff.2 ⟨origin, h.origin horigin, h.walk hwalk⟩

/-- A change elsewhere leaves an entry as it is. -/
theorem lookup_set {place : Location} {node changed : Node} (hne : place ≠ [])
    (hdir : t.isDirectoryAt place = true → changed = .directory)
    (hother : t.placeOf p.components ≠ place) (h : t.lookup p = .ok node) :
    (t.set place changed).lookup p = .ok node := by
  obtain ⟨place', hlocate, hnode⟩ := exists_place_of_lookup h
  refine lookup_of_locate ((extends_set hne hdir).locate hlocate) ?_
  rw [locate_eq_placeOf hlocate] at hnode ⊢
  rw [node?_set hne, if_neg hother, hnode]

theorem growthInvariant_lookup (paths : List Path) (p : Path) (node : Node) :
    GrowthInvariant paths fun t => t.lookup p = .ok node := by
  intro t q _ hne _ hfree h
  refine lookup_set hne (fun _ => rfl) ?_ h
  intro hsame
  obtain ⟨place, hlocate, hnode⟩ := exists_place_of_lookup h
  rw [locate_eq_placeOf hlocate, hsame, hfree] at hnode
  cases hnode

/-! ## Writing -/

theorem writePlace_eq {place : Location} (h : t.writePlace p = .ok place) :
    place ≠ [] ∧ place = t.placeOf p.components ∧ t.isDirectoryAt place.dropLast = true ∧
      t.isDirectoryAt place = false := by
  rw [writePlace] at h
  generalize hcut : cutLastPiece p = cut at h
  obtain ⟨front, last, slashes⟩ := cut
  obtain ⟨parent, hparent, h⟩ := bind_eq_ok_iff.1 h
  cases last with
  | none => cases h
  | some piece =>
    simp only [Bool.or_eq_true, decide_eq_true_eq] at h
    split_ifs at h with hdots _ hdir
    cases h
    rw [not_or, not_or] at hdots
    refine ⟨by simp, (placeOf_of_parentPlace hcut hparent hdots.1.2 hdots.2).symm,
      ?_, by simpa using hdir⟩
    rw [List.dropLast_concat]
    exact isDirectoryAt_of_parentPlace hparent

/-- A property of trees that texts written under some paths keep.  They are written in
directories, and not over one. -/
def WriteInvariant (paths : List Path) (P : FileTree → Prop) : Prop :=
  ∀ t text, ∀ p ∈ paths, t.placeOf p.components ≠ [] →
    t.isDirectoryAt (t.placeOf p.components).dropLast = true →
    t.isDirectoryAt (t.placeOf p.components) = false →
    P t → P (t.set (t.placeOf p.components) (.file (.text text)))

theorem keeps_write {P : FileTree → Prop} {paths : List Path} (hP : WriteInvariant paths P)
    (hp : p ∈ paths) (text : Text) : Keeps P (write p (.text text)) := by
  intro t h
  rw [stateAfter, write]
  cases hplace : t.writePlace p with
  | error cause => exact h
  | ok place =>
    obtain ⟨hne, rfl, hparent, hdir⟩ := writePlace_eq hplace
    exact hP t text p hp hne hparent hdir h

/-- No tree has one location for both paths. -/
def Elsewhere (p q : Path) : Prop :=
  ∀ t : FileTree, t.placeOf p.components ≠ t.placeOf q.components

theorem placeOf_append_names (t : FileTree) (steps : List Component) (names : List Text) :
    t.placeOf (steps ++ names.map .normal) = t.placeOf steps ++ names := by
  rw [placeOf, List.foldl_append, foldl_stepPlace_names]
  rfl

theorem elsewhere_of_names {q : Path} {steps : List Component} {names names' : List Text}
    (hp : p.components = steps ++ names.map .normal)
    (hq : q.components = steps ++ names'.map .normal) (hne : names ≠ names') : Elsewhere p q := by
  intro t h
  rw [hp, hq, placeOf_append_names, placeOf_append_names] at h
  exact hne (List.append_cancel_left h)

theorem writeInvariant_lookup {paths : List Path} {node : Node} (h : ∀ q ∈ paths, Elsewhere p q) :
    WriteInvariant paths fun t => t.lookup p = .ok node := by
  intro t text q hq hne _ hdir hnode
  refine lookup_set hne (fun htrue => ?_) (h q hq t) hnode
  rw [hdir] at htrue
  cases htrue

theorem walk_append {place between last : Location} {front back : List Text}
    (hfront : t.walk place front = .ok between) (hback : t.walk between back = .ok last) :
    t.walk place (front ++ back) = .ok last := by
  induction front generalizing place with
  | nil =>
    cases hfront
    exact hback
  | cons piece front ih =>
    rw [List.cons_append]
    rw [FileTree.walk] at hfront ⊢
    split_ifs at hfront ⊢
    · exact ih hfront
    · exact ih hfront
    · exact ih hfront

/-- Without a slash at the end, the last piece is the end of the text. -/
theorem split_of_cutLastPiece {front : List Text} {piece : Text}
    (h : cutLastPiece p = (front, some piece, false)) : p.text.split '/' = front ++ [piece] := by
  obtain ⟨_, empties, hempties, hsplit⟩ := exists_split_of_cutLastPiece h
  have hlast : ((p.text.split '/').getLast? == some []) = false := by
    rw [cutLastPiece] at h
    split at h
    · simp only [Prod.mk.injEq] at h
      exact h.2.2
    · cases h
  rcases List.eq_nil_or_concat empties with rfl | ⟨init, last, rfl⟩
  · exact hsplit
  · have hend : p.text.split '/' = (front ++ piece :: init) ++ [last] := by simpa using hsplit
    rw [hend, List.getLast?_concat, hempties last (by simp)] at hlast
    cases hlast

/-- Empty pieces lead from a directory to the directory itself. -/
private theorem walk_empties {place : Location} {empties : List Text}
    (hdir : t.isDirectoryAt place = true) (hempties : ∀ e ∈ empties, e = []) :
    t.walk place empties = .ok place := by
  induction empties with
  | nil => rfl
  | cons e empties ih =>
    rw [FileTree.walk, if_neg (by simp [hdir]),
      if_pos (by rw [hempties e List.mem_cons_self]; rfl)]
    exact ih fun other hother => hempties other (List.mem_cons_of_mem e hother)

/-- The directory of the last piece is found first, then the piece in it.  Slashes behind the
piece are for directories only. -/
private theorem locate_of_parentPlace (hextends : Extends t t') {front : List Text} {piece : Text}
    {slashes : Bool} {parent : Location} {node : Node}
    (hcut : cutLastPiece p = (front, some piece, slashes))
    (hparent : t.parentPlace p front = .ok parent) (hdot : piece ≠ ['.'])
    (hup : piece ≠ ['.', '.']) (hshort : ¬ nameLimit < piece.byteLength)
    (hnode : t'.node? (parent ++ [piece]) = some node)
    (hslashes : slashes = true → node = .directory) :
    t'.locate p = .ok (parent ++ [piece]) := by
  obtain ⟨hne, empties, hempties, hsplit⟩ := exists_split_of_cutLastPiece hcut
  have hrest : t'.walk (parent ++ [piece]) empties = .ok (parent ++ [piece]) := by
    cases slashes with
    | true =>
      refine walk_empties ?_ hempties
      rw [isDirectoryAt, hnode, hslashes rfl]
      rfl
    | false =>
      rw [split_of_cutLastPiece hcut, List.append_cancel_left_eq, List.cons.injEq] at hsplit
      rw [← hsplit.2]
      rfl
  obtain ⟨origin, horigin, h⟩ := bind_eq_ok_iff.1 hparent
  obtain ⟨between, hwalk, h⟩ := bind_eq_ok_iff.1 h
  split_ifs at h with hparentDir
  cases h
  refine bind_eq_ok_iff.2 ⟨origin, hextends.origin horigin, ?_⟩
  rw [hsplit]
  refine walk_append (hextends.walk hwalk) ?_
  have hidle : Component.idle piece = false := by simp [Component.idle, hne, hdot]
  rw [FileTree.walk]
  simpa [hextends.directories _ hparentDir, hidle, hup, hshort, hnode] using hrest

theorem locate_of_writePlace (hextends : Extends t t') {place : Location} {node : Node}
    (hplace : t.writePlace p = .ok place) (hnode : t'.node? place = some node) :
    t'.locate p = .ok place := by
  rw [writePlace] at hplace
  generalize hcut : cutLastPiece p = cut at hplace
  obtain ⟨front, last, slashes⟩ := cut
  obtain ⟨parent, hparent, h⟩ := bind_eq_ok_iff.1 hplace
  cases last with
  | none => cases h
  | some piece =>
    simp only [Bool.or_eq_true, decide_eq_true_eq] at h
    split_ifs at h with hdots hlong hdir
    cases h
    rw [not_or, not_or] at hdots
    exact locate_of_parentPlace hextends hcut hparent hdots.1.2 hdots.2 hlong hnode
      fun hslashes => absurd hslashes hdots.1.1

/-- What was written is there. -/
theorem lookup_write {content : Content} (h : write p content t = .ok () t') :
    t'.lookup p = .ok (.file content) := by
  rw [write] at h
  cases hplace : t.writePlace p with
  | error cause =>
    rw [hplace] at h
    cases h
  | ok place =>
    rw [hplace] at h
    cases h
    obtain ⟨hne, _, _, hdir⟩ := writePlace_eq hplace
    have hextends : Extends t (t.set place (.file content)) := by
      refine extends_set hne fun htrue => ?_
      rw [hdir] at htrue
      cases htrue
    have hnode : (t.set place (.file content)).node? place = some (.file content) := by
      rw [node?_set hne, if_pos rfl]
    exact lookup_of_locate (locate_of_writePlace hextends hplace hnode) hnode

/-! ## Directories that are made -/

theorem isDirectory_makeDirectory (h : makeDirectory p t = .ok () t') :
    t'.isDirectory p = true := by
  rw [makeDirectory] at h
  cases hplace : t.directoryPlace p with
  | error cause =>
    rw [hplace] at h
    cases h
  | ok place =>
    rw [hplace] at h
    cases h
    obtain ⟨hne, _⟩ := directoryPlace_eq hplace
    have hnode : (t.set place .directory).node? place = some .directory := by
      rw [node?_set hne, if_pos rfl]
    rw [directoryPlace] at hplace
    generalize hcut : cutLastPiece p = cut at hplace
    obtain ⟨front, last, slashes⟩ := cut
    obtain ⟨parent, hparent, h⟩ := bind_eq_ok_iff.1 hplace
    cases last with
    | none => cases h
    | some piece =>
      simp only [Bool.or_eq_true, decide_eq_true_eq] at h
      split_ifs at h with hdots hlong
      cases h
      rw [not_or] at hdots
      have hlocate := locate_of_parentPlace (extends_set hne fun _ => rfl) hcut hparent
        hdots.1 hdots.2 hlong hnode fun _ => rfl
      rw [isDirectory, lookup_of_locate hlocate hnode]

/-- A directory that was made, or was there before, is there. -/
theorem isDirectory_makeDirectories (hp : p.text ≠ []) (h : makeDirectories p t = .ok () t') :
    t'.isDirectory p = true := by
  obtain ⟨above, hancestors⟩ : ∃ above, p.ancestors = p :: above := by
    rw [Path.ancestors]
    cases p.text.length with
    | zero => exact ⟨[], rfl⟩
    | succ steps =>
      rw [Path.ancestorsUpTo]
      split
      · exact ⟨_, rfl⟩
      · exact ⟨[], rfl⟩
  rw [makeDirectories, hancestors, makeChain] at h
  beta_reduce at h
  rw [if_neg hp] at h
  split at h
  · rename_i hmake
    cases h
    exact isDirectory_makeDirectory hmake
  · split at h
    · split at h
      · rename_i hmake
        cases h
        exact isDirectory_makeDirectory hmake
      · split_ifs at h with hthere
        cases h
        exact hthere
    · cases h
  · split_ifs at h with hthere
    cases h
    exact hthere

end FileTree

end StyleBundle

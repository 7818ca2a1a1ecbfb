import Mathlib.Data.List.Infix
import Mathlib.Data.List.Nodup
import StyleBundle.Proofs.FileTree.Inside

/-!
# Trees that are alike outside of a directory

Two trees that are alike outside of a directory have the same entries there, and all files hold
the same, but for some that were changed (`FileTree.Alike`).  A path keeps clear of the directory
if no step of it leads into it (`Path.KeepsClear`).  The trees answer every question about such a
path in the same way, if the path does not name a changed file or the question is not what the
file holds.

A tree that was changed inside the directory alone is alike outside of it, once the directories on
the way to it are there (`FileTree.SameOutside.alike`).
-/

namespace StyleBundle

namespace Path

open FileTree

variable {base p q : Path}

/-! ## Paths that keep clear of a directory -/

/-- No step of the absolute path leads to the base or into it. -/
structure KeepsClear (base p : Path) : Prop where
  isAbsolute : p.isAbsolute = true
  outside : ∀ steps, steps <+: p.components → ¬ base.place <+: steps.foldl stepPlace []

instance (base p : Path) : Decidable (KeepsClear base p) :=
  decidable_of_iff (p.isAbsolute = true ∧
      ∀ steps ∈ p.components.inits, ¬ base.place <+: steps.foldl stepPlace [])
    ⟨fun h => ⟨h.1, fun steps hsteps => h.2 steps ((List.mem_inits _ _).2 hsteps)⟩,
      fun h => ⟨h.isAbsolute,
        fun steps hsteps => h.outside steps ((List.mem_inits _ _).1 hsteps)⟩⟩

theorem KeepsClear.place (h : KeepsClear base p) : ¬ base.place <+: p.place :=
  h.outside p.components List.prefix_rfl

theorem KeepsClear.above (h : KeepsClear base p) (hq : q.isAbsolute = true)
    (habove : q.components <+: p.components) : KeepsClear base q :=
  ⟨hq, fun steps hsteps => h.outside steps (hsteps.trans habove)⟩

theorem KeepsClear.congr (h : KeepsClear base p) (hsame : p.components = q.components) :
    KeepsClear base q :=
  h.above (isAbsolute_congr hsame ▸ h.isAbsolute) (hsame ▸ List.prefix_rfl)

theorem place_congr (h : p.components = q.components) : p.place = q.place := by
  rw [place, place, h]

theorem place_push_name (p : Path) {name : Text} (h : Component.IsName name) :
    (p.push name).place = p.place ++ [name] := by
  rw [place, components_push_name p h, List.foldl_append]
  rfl

end Path

namespace FileTree

variable {t t' t'' : FileTree} {base p : Path} {changed : List Location} {place : Location}

/-! ## Names in a directory -/

private theorem eq_concat_of_getLast? {other : Location} {name : Text}
    (hplace : other.dropLast = place) (hname : other.getLast? = some name) :
    other = place ++ [name] := by
  obtain ⟨front, rfl⟩ := List.getLast?_eq_some_iff.1 hname
  rw [List.dropLast_concat] at hplace
  rw [hplace]

theorem mem_namesIn_iff {name : Text} :
    name ∈ t.namesIn place ↔ (t.node? (place ++ [name])).isSome = true := by
  have hne : place ++ [name] ≠ [] := by simp
  rw [namesIn, List.mem_mergeSort, List.mem_filterMap, node?, if_neg hne, Option.isSome_map,
    List.find?_isSome]
  refine exists_congr fun entry => and_congr_right fun _ => ?_
  simp only [beq_iff_eq]
  constructor
  · intro h
    split_ifs at h with hplace
    exact eq_concat_of_getLast? hplace h
  · intro h
    rw [h, List.dropLast_concat, if_pos rfl, List.getLast?_concat]

/-- No location has two entries. -/
def Unique (t : FileTree) : Prop :=
  (t.entries.map Prod.fst).Nodup

instance (t : FileTree) : Decidable t.Unique :=
  inferInstanceAs (Decidable ((t.entries.map Prod.fst).Nodup))

theorem Unique.set (h : t.Unique) (place : Location) (node : Node) :
    (t.set place node).Unique := by
  rw [Unique, FileTree.set, List.map_append, List.nodup_append]
  refine ⟨h.sublist (List.filter_sublist.map _), List.nodup_singleton _, ?_⟩
  intro other hother last hlast
  obtain ⟨entry, hentry, rfl⟩ := List.mem_map.1 hother
  rw [List.map_singleton, List.mem_singleton] at hlast
  simpa [hlast] using (List.mem_filter.1 hentry).2

theorem Unique.removeDirectory (h : t.Unique) (p : Path) :
    (stateAfter (removeDirectory p) t).Unique := by
  obtain ⟨keep, hafter⟩ := exists_filter_removeDirectory t p
  rw [hafter]
  exact List.Nodup.sublist (List.filter_sublist.map _) h

theorem Unique.nodup_namesIn (h : t.Unique) (place : Location) : (t.namesIn place).Nodup := by
  have hnames : t.namesIn place = ((t.entries.map Prod.fst).filterMap fun other =>
      if other.dropLast = place then other.getLast? else none).mergeSort Text.le := by
    rw [namesIn, List.filterMap_map]
    rfl
  rw [hnames, (List.mergeSort_perm _ _).nodup_iff]
  refine List.Nodup.filterMap (fun other other' name hname hname' => ?_) h
  simp only [Option.mem_def, Option.ite_none_right_eq_some] at hname hname'
  rw [eq_concat_of_getLast? hname.1 hname.2, eq_concat_of_getLast? hname'.1 hname'.2]

/-! ## Trees that are alike -/

/-- Outside of the base the trees have the same entries, and only the changed files may differ in
what they hold. -/
def Alike (base : Path) (changed : List Location) (t t' : FileTree) : Prop :=
  ∀ place, ¬ base.place <+: place → t'.node? place = t.node? place ∨
    place ∈ changed ∧ ∃ old new, t.node? place = some (.file old) ∧
    t'.node? place = some (.file new)

theorem Alike.symm (h : Alike base changed t t') : Alike base changed t' t := by
  intro place hout
  rcases h place hout with hsame | ⟨hchanged, old, new, hold, hnew⟩
  · exact .inl hsame.symm
  · exact .inr ⟨hchanged, new, old, hnew, hold⟩

theorem Alike.trans (h : Alike base changed t t') (h' : Alike base changed t' t'') :
    Alike base changed t t'' := by
  intro place hout
  rcases h place hout with hsame | ⟨hchanged, old, new, hold, hnew⟩
  · rw [← hsame]
    exact h' place hout
  · rcases h' place hout with hsame' | ⟨_, _, newer, _, hnewer⟩
    · exact .inr ⟨hchanged, old, new, hold, hsame'.trans hnew⟩
    · exact .inr ⟨hchanged, old, newer, hold, hnewer⟩

theorem Alike.mono {more : List Location} (h : Alike base changed t t') (hmore : changed ⊆ more) :
    Alike base more t t' := fun place hout =>
  (h place hout).imp_right fun ⟨hchanged, hfiles⟩ => ⟨hmore hchanged, hfiles⟩

/-- Another text in a file changes nothing else. -/
theorem alike_set {old : Content} (base : Path) (h : t.node? place = some (.file old))
    (new : Content) :
    Alike base [place] t (t.set place (.file new)) := by
  intro other _
  have hne : place ≠ [] := by
    rintro rfl
    cases h
  rw [node?_set hne]
  split_ifs with hother
  · subst hother
    exact .inr ⟨List.mem_singleton_self _, old, new, h, rfl⟩
  · exact .inl rfl

section Alike

variable (h : Alike base changed t t')
include h

theorem Alike.isDirectoryAt_eq (hout : ¬ base.place <+: place) :
    t'.isDirectoryAt place = t.isDirectoryAt place := by
  rw [isDirectoryAt, isDirectoryAt]
  rcases h place hout with hsame | ⟨_, old, new, hold, hnew⟩
  · rw [hsame]
  · rw [hold, hnew]
    rfl

theorem Alike.isSome_eq (hout : ¬ base.place <+: place) :
    (t'.node? place).isSome = (t.node? place).isSome := by
  rcases h place hout with hsame | ⟨_, old, new, hold, hnew⟩
  · rw [hsame]
  · rw [hold, hnew]
    rfl

theorem Alike.walk_eq {pieces : List Text}
    (hclear : ∀ steps, steps <+: pieces.filterMap Component.ofPiece? →
      ¬ base.place <+: steps.foldl stepPlace place) : t'.walk place pieces =
        t.walk place pieces := by
  induction pieces generalizing place with
  | nil => rfl
  | cons piece pieces ih =>
    have hhere : ¬ base.place <+: place := hclear [] List.nil_prefix
    rw [walk, walk, h.isDirectoryAt_eq hhere]
    cases hidle : Component.idle piece with
    | true =>
      rw [List.filterMap_cons_none (Component.ofPiece?_of_idle hidle)] at hclear
      simp only [if_true, ih hclear]
    | false =>
      have hnext : ∀ step, Component.ofPiece? piece = some step →
          t'.walk (stepPlace place step) pieces = t.walk (stepPlace place step) pieces ∧
            ¬ base.place <+: stepPlace place step := by
        intro step hstep
        rw [List.filterMap_cons_some hstep] at hclear
        have hlater := fun steps hsteps =>
          hclear (step :: steps) (List.cons_prefix_cons.2 ⟨rfl, hsteps⟩)
        exact ⟨ih hlater, hlater [] List.nil_prefix⟩
      rcases Component.ofPiece?_cases hidle with ⟨hup, hstep⟩ | ⟨hup, hstep⟩
      · have hwalk := (hnext _ hstep).1
        rw [stepPlace] at hwalk
        simp only [Bool.false_eq_true, if_false, if_pos hup, hwalk]
      · obtain ⟨hwalk, hout⟩ := hnext _ hstep
        have hnone := congrArg not (h.isSome_eq hout)
        rw [Option.not_isSome, Option.not_isSome, stepPlace] at hnone
        rw [stepPlace] at hwalk
        simp only [Bool.false_eq_true, if_false, if_neg hup, hwalk, hnone]

theorem Alike.locate_eq (hp : Path.KeepsClear base p) : t'.locate p = t.locate p := by
  have horigin : t'.origin p = t.origin p := by
    rw [origin, origin, if_pos hp.isAbsolute, if_pos hp.isAbsolute]
  rw [locate, locate, horigin]
  cases hplace : t.origin p with
  | error cause => rfl
  | ok place =>
    refine h.walk_eq fun steps hsteps => ?_
    rw [(origin_eq_ok_iff.1 hplace).2, start, if_pos hp.isAbsolute]
    refine hp.outside (.root :: steps) ?_
    rw [Path.components_eq, Path.leadComponents, if_pos hp.isAbsolute]
    exact List.cons_prefix_cons.2 ⟨rfl, hsteps⟩

/-- A path that keeps clear finds the same entry in both trees, or a changed file. -/
theorem Alike.lookup_cases (hp : Path.KeepsClear base p) :
    t'.lookup p = t.lookup p ∨ p.place ∈ changed ∧
      ∃ old new, t.lookup p = .ok (.file old) ∧ t'.lookup p = .ok (.file new) := by
  have hlocate := h.locate_eq hp
  cases hplace : t.locate p with
  | error cause =>
    rw [hplace] at hlocate
    rw [lookup, lookup, hplace, hlocate]
    exact .inl rfl
  | ok place =>
    rw [hplace] at hlocate
    obtain rfl : place = p.place := by
      rw [locate_eq_placeOf hplace, Path.placeOf_eq_place t hp.isAbsolute]
    rcases h p.place hp.place with hsame | ⟨hchanged, old, new, hold, hnew⟩
    · left
      rw [lookup, lookup, hplace, hlocate]
      simp only [bind, Except.bind, hsame]
    · exact .inr ⟨hchanged, old, new, lookup_of_locate hplace hold, lookup_of_locate hlocate hnew⟩

theorem Alike.isFile_eq (hp : Path.KeepsClear base p) : t'.isFile p = t.isFile p := by
  rw [isFile, isFile]
  rcases h.lookup_cases hp with hsame | ⟨_, old, new, hold, hnew⟩
  · rw [hsame]
  · rw [hold, hnew]

theorem Alike.isDirectory_eq (hp : Path.KeepsClear base p) :
    t'.isDirectory p = t.isDirectory p := by
  rw [isDirectory, isDirectory]
  rcases h.lookup_cases hp with hsame | ⟨_, old, new, hold, hnew⟩
  · rw [hsame]
  · rw [hold, hnew]

theorem Alike.hasEntry_eq (hp : Path.KeepsClear base p) : t'.hasEntry p = t.hasEntry p := by
  rw [hasEntry, hasEntry]
  rcases h.lookup_cases hp with hsame | ⟨_, old, new, hold, hnew⟩
  · rw [hsame]
  · rw [hold, hnew]

theorem Alike.read_eq (hp : Path.KeepsClear base p) (hunchanged : p.place ∉ changed) :
    t'.read p = t.read p := by
  rw [read, read, (h.lookup_cases hp).resolve_right fun hchanged => hunchanged hchanged.1]

/-- A name in a directory is in the directory of the other tree too, if its path keeps clear. -/
theorem Alike.exists_mem_names {names : List Text} {name : Text} (hname : Component.IsName name)
    (hp : Path.KeepsClear base (p.push name)) (hnames : t.names p = .ok names)
    (hmem : name ∈ names) :
    ∃ names', t'.names p = .ok names' ∧ name ∈ names' := by
  have hpush := Path.components_push_name p hname
  have habs : p.isAbsolute = true := by
    rw [Path.isAbsolute_iff_mem]
    simpa [hpush] using Path.isAbsolute_iff_mem.1 hp.isAbsolute
  have hclear := hp.above habs (hpush ▸ List.prefix_append _ _)
  obtain ⟨place, hplace, hnames⟩ := bind_eq_ok_iff.1 hnames
  split_ifs at hnames with hdir
  cases hnames
  obtain rfl : place = p.place := by
    rw [locate_eq_placeOf hplace, Path.placeOf_eq_place t habs]
  have hplace' : t'.locate p = .ok p.place := (h.locate_eq hclear).trans hplace
  refine ⟨t'.namesIn p.place, bind_eq_ok_iff.2 ⟨_, hplace', ?_⟩, ?_⟩
  · rw [if_pos ((h.isDirectoryAt_eq hclear.place).trans hdir)]
  · have hout := hp.place
    rw [Path.place_push_name p hname] at hout
    rw [mem_namesIn_iff] at hmem ⊢
    exact (h.isSome_eq hout).trans hmem

end Alike

/-! ## The way to a directory -/

/-- Every directory on the way to the base is there. -/
def HasWay (base : Path) (t : FileTree) : Prop :=
  ∀ place, base.LeadsThrough place → ¬ base.place <+: place → t.isDirectoryAt place = true

theorem SameOutside.alike (h : SameOutside base t t') (hway : HasWay base t) :
    Alike base [] t t' := by
  intro place hout
  rcases h.nodes place hout with hsame | ⟨hnone, _, hthrough⟩
  · exact .inl hsame
  · have hdir := hway place hthrough hout
    rw [isDirectoryAt, hnone] at hdir
    cases hdir

theorem HasWay.of_alike (hway : HasWay base t) (h : Alike base changed t t') : HasWay base t' :=
  fun place hthrough hout => (h.isDirectoryAt_eq hout).trans (hway place hthrough hout)

/-- What is found behind the base is found on the way that leads through it. -/
theorem isDirectoryAt_of_leadsThrough {steps : List Component} {between : Location}
    (hbase : base.isAbsolute = true) (hp : p.components = base.components ++ steps)
    (hsteps : steps ≠ []) (h : t.locate p = .ok place) (hthrough : base.LeadsThrough between) :
    t.isDirectoryAt between = true := by
  obtain ⟨front, ⟨later, hlater⟩, rfl⟩ := hthrough
  have habs : p.isAbsolute = true := by
    rw [Path.isAbsolute_iff_mem, hp]
    exact List.mem_append_left _ (Path.isAbsolute_iff_mem.1 hbase)
  have hfollows := (follows_of_locate h).2
  rw [start, if_pos habs, hp, ← hlater, List.append_assoc, follows_append_iff] at hfollows
  obtain ⟨between, hfront, hrest⟩ := hfollows
  rw [← hfront.eq_foldl]
  obtain ⟨step, more, hmore⟩ :=
    List.exists_cons_of_ne_nil (List.append_ne_nil_of_right_ne_nil later hsteps)
  rw [hmore] at hrest
  cases hrest with
  | step hstep _ => exact hstep.1

theorem hasWay_of_locate {steps : List Component} (hbase : base.isAbsolute = true)
    (hp : p.components = base.components ++ steps) (hsteps : steps ≠ [])
    (h : t.locate p = .ok place) :
    HasWay base t :=
  fun _ hthrough _ => isDirectoryAt_of_leadsThrough hbase hp hsteps h hthrough

end FileTree

end StyleBundle

import StyleBundle.Build.Plan
import StyleBundle.Proofs.Build.Discovery

/-!
# What the units of a build write

A build has one unit for each entry of its own and one for each group.  A unit writes a
stylesheet, its source map, and the input of the compiler if that is to be kept
(`BuildUnit.written`).

All of these lie below the output directory, and `BuildUnit.Spot` tells under which names.  From
them it can be read off when two units write one file: `BuildUnit.Clash` says it of entries and
groups, and `BuildUnit.apart_iff_not_clash` says that there is no other way.
-/

namespace StyleBundle

/-- What a build makes one stylesheet of. -/
inductive BuildUnit where
  /-- An entry of its own. -/
  | entry (p : Path)
  /-- The members of a group. -/
  | group (g : EntryGroup)
deriving DecidableEq

namespace BuildUnit

/-- Whether the unit is an entry.  Entries may be built side by side, and all of them are built
before the groups. -/
def isEntry : BuildUnit → Bool
  | entry _ => true
  | group _ => false

/-- The path of the compiler's input, below the directory for such files. -/
def source (b : BuildPlan) : BuildUnit → Path
  | entry p => b.discovery.relative p
  | group g => ⟨BuildPlan.groupFile g⟩

/-- The path of the stylesheet that is written for the unit. -/
def cssPath (b : BuildPlan) : BuildUnit → Path
  | entry p => b.layout.singlePath (b.discovery.relative p)
  | group g => b.layout.groupPath g.name

/-- The paths that a unit writes to. -/
def written (b : BuildPlan) (u : BuildUnit) : List Path :=
  [u.cssPath b, Layout.mapPath (u.cssPath b)] ++
    if b.preserveIntermediate then [b.layout.intermediatePath (u.source b)] else []

/-- No path of the one leads to a file of the other. -/
def Apart (b : BuildPlan) (u v : BuildUnit) : Prop :=
  ∀ p ∈ u.written b, ∀ q ∈ v.written b, p.normalize ≠ q.normalize

/-- The paths differ in the extension of the file alone. -/
def DifferInExtension (p q : Path) : Prop :=
  p.components ≠ q.components ∧ p.components.dropLast = q.components.dropLast ∧
    p.fileName?.map Path.stem = q.fileName?.map Path.stem

/-- Two entries are in each other's way if they differ in the extension alone, and two groups if
they have one name.  An entry and a group are if inputs of the compiler are kept, and the entry
lies directly in the directory of the stylesheets under the name that the text of the group
gets. -/
def Clash (b : BuildPlan) : BuildUnit → BuildUnit → Prop
  | entry p, entry q => DifferInExtension (b.discovery.relative p) (b.discovery.relative q)
  | entry p, group g | group g, entry p =>
    b.preserveIntermediate = true ∧
      (b.discovery.relative p).components = [.normal (BuildPlan.groupFile g)]
  | group g, group h => g.name = h.name

/-! ## Names below the output directory -/

/-- The names under which a unit writes. -/
structure Spot where
  /-- The directory for units of this kind. -/
  folder : Text
  /-- The directories below it. -/
  dirs : List Text
  /-- The name without an extension. -/
  stem : Text
  /-- The extension of the compiler's input. -/
  ext : Text

namespace Spot

/-- The names that lead from the output directory to the stylesheet. -/
def css (s : Spot) : List Text :=
  s.folder :: s.dirs ++ [s.stem ++ ".css".toList]

/-- The names that lead from the output directory to the source map. -/
def map (s : Spot) : List Text :=
  s.folder :: s.dirs ++ [s.stem ++ ".css".toList ++ ".map".toList]

/-- The names that lead from the output directory to the input of the compiler. -/
def intermediate (s : Spot) : List Text :=
  "intermediate".toList :: s.dirs ++ [s.stem ++ '.' :: s.ext]

/-- All that is written there.  The input of the compiler is only kept on demand. -/
def written (s : Spot) (preserve : Bool) : List (List Text) :=
  [s.css, s.map] ++ if preserve then [s.intermediate] else []

variable {s s' : Spot} {preserve : Bool}

theorem mem_written {names : List Text} :
    names ∈ s.written preserve ↔
      names = s.css ∨ names = s.map ∨ preserve = true ∧ names = s.intermediate := by
  cases preserve <;> simp [written]

theorem css_ne_map (s s' : Spot) : s.css ≠ s'.map := by
  intro h
  have hname : s.stem ++ ".css".toList = s'.stem ++ ".css".toList ++ ".map".toList := by
    have hparts : s.folder = s'.folder ∧ s.dirs = s'.dirs ∧
        s.stem ++ ".css".toList = s'.stem ++ ".css".toList ++ ".map".toList := by
      simpa [css, map] using h
    exact hparts.2.2
  have hlast := congrArg List.getLast? hname
  rw [List.getLast?_append, List.getLast?_append] at hlast
  cases hlast

theorem css_ne_intermediate (h : s.folder ≠ "intermediate".toList) (s' : Spot) :
    s.css ≠ s'.intermediate := by
  intro hsame
  have hhead := congrArg List.head? hsame
  simp only [css, intermediate, List.cons_append, List.head?_cons, Option.some.injEq] at hhead
  exact h hhead

theorem map_ne_intermediate (h : s.folder ≠ "intermediate".toList) (s' : Spot) :
    s.map ≠ s'.intermediate := by
  intro hsame
  have hhead := congrArg List.head? hsame
  simp only [map, intermediate, List.cons_append, List.head?_cons, Option.some.injEq] at hhead
  exact h hhead

/-- Two spots share a file if they have the same stylesheet, or the same input of the compiler. -/
theorem meet_iff (hfolder : s.folder ≠ "intermediate".toList)
    (hfolder' : s'.folder ≠ "intermediate".toList) :
    (∃ names ∈ s.written preserve, names ∈ s'.written preserve) ↔
      (s.folder = s'.folder ∧ s.dirs = s'.dirs ∧ s.stem = s'.stem) ∨
        (preserve = true ∧ s.dirs = s'.dirs ∧ s.stem ++ '.' :: s.ext = s'.stem ++
          '.' :: s'.ext) := by
  simp only [mem_written]
  constructor
  · rintro ⟨names, rfl | rfl | ⟨hpreserve, rfl⟩, h | h | ⟨_, h⟩⟩
    · exact .inl (by simpa [css] using h)
    · exact absurd h (css_ne_map s s')
    · exact absurd h (css_ne_intermediate hfolder s')
    · exact absurd h.symm (css_ne_map s' s)
    · exact .inl (by simpa [map] using h)
    · exact absurd h (map_ne_intermediate hfolder s')
    · exact absurd h.symm (css_ne_intermediate hfolder' s)
    · exact absurd h.symm (map_ne_intermediate hfolder' s)
    · exact .inr ⟨hpreserve, by simpa [intermediate] using h⟩
  · rintro (⟨hf, hdirs, hstem⟩ | ⟨hpreserve, hdirs, hfile⟩)
    · exact ⟨s.css, .inl rfl, .inl (by rw [css, css, hf, hdirs, hstem])⟩
    · refine ⟨s.intermediate, .inr (.inr ⟨hpreserve, rfl⟩), .inr (.inr ⟨hpreserve, ?_⟩)⟩
      rw [intermediate, intermediate, hdirs, hfile]

end Spot

/-! ## Where a unit writes -/

variable {b : BuildPlan} {u v : BuildUnit} {s s' : Spot}

/-- The unit writes under the names of the spot. -/
structure LiesAt (b : BuildPlan) (u : BuildUnit) (s : Spot) : Prop where
  css : (u.cssPath b).EndsIn (b.layout.root.components ++ (s.folder :: s.dirs).map .normal)
    (s.stem ++ ".css".toList)
  intermediate : (b.layout.intermediatePath (u.source b)).EndsIn
    (b.layout.root.components ++ ("intermediate".toList :: s.dirs).map .normal)
    (s.stem ++ '.' :: s.ext)
  kind : s.folder = "single".toList ∨ s.folder = "group".toList
  chars : ∀ name ∈ s.stem :: s.dirs, ∀ c ∈ name, c ∈ (u.source b).text

theorem isName_of_three {name : Text} (hslash : '/' ∉ name) (h : 3 ≤ name.length) :
    Component.IsName name := by
  refine .of_ne hslash ?_ ?_ ?_
  all_goals
    rintro rfl
    simp at h

theorem LiesAt.map (h : u.LiesAt b s) :
    (Layout.mapPath (u.cssPath b)).EndsIn
      (b.layout.root.components ++ (s.folder :: s.dirs).map .normal)
      (s.stem ++ ".css".toList ++ ".map".toList) := by
  refine h.css.append (isName_of_three ?_ (by simp))
  have hslash := h.css.isName.one_piece
  simp only [List.mem_append, not_or] at hslash ⊢
  exact ⟨hslash, by decide⟩

theorem LiesAt.folder (h : u.LiesAt b s) : s.folder ≠ "intermediate".toList := by
  rcases h.kind with hkind | hkind
  · rw [hkind]
    decide
  · rw [hkind]
    decide

theorem LiesAt.components_css (h : u.LiesAt b s) :
    (u.cssPath b).components = b.layout.root.components ++ s.css.map .normal := by
  rw [h.css.components, Spot.css]
  simp

theorem LiesAt.components_map (h : u.LiesAt b s) :
    (Layout.mapPath (u.cssPath b)).components = b.layout.root.components ++
      s.map.map .normal := by
  rw [h.map.components, Spot.map]
  simp

theorem LiesAt.components_intermediate (h : u.LiesAt b s) :
    (b.layout.intermediatePath (u.source b)).components =
      b.layout.root.components ++ s.intermediate.map .normal := by
  rw [h.intermediate.components, Spot.intermediate]
  simp

theorem LiesAt.components_written (h : u.LiesAt b s) :
    (u.written b).map Path.components =
      (s.written b.preserveIntermediate).map fun names =>
        b.layout.root.components ++ names.map .normal := by
  rw [written, Spot.written]
  split_ifs
  · simp [h.components_css, h.components_map, h.components_intermediate]
  · simp [h.components_css, h.components_map]

theorem apart_iff (hu : u.LiesAt b s) (hv : v.LiesAt b s') :
    Apart b u v ↔ ¬ ∃ names ∈ s.written b.preserveIntermediate,
      names ∈ s'.written b.preserveIntermediate := by
  have hshare : (∃ p ∈ u.written b, ∃ q ∈ v.written b, p.normalize = q.normalize) ↔
      ∃ names ∈ s.written b.preserveIntermediate, names ∈ s'.written b.preserveIntermediate := by
    constructor
    · rintro ⟨p, hp, q, hq, h⟩
      have hp' := List.mem_map_of_mem (f := Path.components) hp
      have hq' := List.mem_map_of_mem (f := Path.components) hq
      rw [hu.components_written, List.mem_map] at hp'
      rw [hv.components_written, List.mem_map] at hq'
      obtain ⟨names, hnames, hp'⟩ := hp'
      obtain ⟨names', hnames', hq'⟩ := hq'
      obtain rfl := (Path.normalize_eq_iff_of_names hp'.symm hq'.symm).1 h
      exact ⟨names, hnames, hnames'⟩
    · rintro ⟨names, hnames, hnames'⟩
      have hp := List.mem_map_of_mem (f := fun names =>
        b.layout.root.components ++ names.map Component.normal) hnames
      have hq := List.mem_map_of_mem (f := fun names =>
        b.layout.root.components ++ names.map Component.normal) hnames'
      rw [← hu.components_written, List.mem_map] at hp
      rw [← hv.components_written, List.mem_map] at hq
      obtain ⟨p, hp, hpn⟩ := hp
      obtain ⟨q, hq, hqn⟩ := hq
      exact ⟨p, hp, q, hq, (Path.normalize_eq_iff_of_names hpn hqn).2 rfl⟩
  rw [← hshare, Apart]
  simp only [not_exists, not_and]

private theorem components_folder (l : Layout) (hroot : l.root.isAbsolute = true) {folder : Text}
    (hfolder : Component.IsName folder) :
    (l.root.push folder).text ≠ [] ∧
      (l.root.push folder).components = l.root.components ++ [.normal folder] :=
  ⟨Path.text_ne_nil_of_isAbsolute (Path.isAbsolute_push hroot folder),
    Path.components_push_name _ hfolder⟩

theorem liesAt_entry {p : Path} {dirs : List Text} {stem ext : Text}
    (hroot : b.layout.root.isAbsolute = true) (hstyles : b.stylesDir.isAbsolute = true)
    (h : b.discovery.EntryAt p dirs stem ext) :
    (entry p).LiesAt b ⟨"single".toList, dirs, stem, ext⟩ := by
  have hrest := h.isRest_relative hstyles
  have hsingle : Component.IsName "single".toList := isName_of_three (by decide) (by decide)
  have hinput : Component.IsName "intermediate".toList := isName_of_three (by decide) (by decide)
  obtain ⟨hne, hcomponents⟩ := components_folder b.layout hroot hsingle
  obtain ⟨hne', hcomponents'⟩ := components_folder b.layout hroot hinput
  have hends := hrest.endsIn_join hne
  have hends' := hrest.endsIn_join hne'
  rw [hcomponents, List.append_assoc] at hends
  rw [hcomponents', List.append_assoc] at hends'
  refine ⟨hends.withExtension h.stem_ne_nil ?_ ?_ (isName_of_three ?_ ?_), hends', .inl rfl, ?_⟩
  · rintro rfl
    exact h.stem_visible rfl
  · rcases h.extension with rfl | rfl <;> decide
  · have hslash := hends.isName.one_piece
    rw [List.mem_append, not_or] at hslash ⊢
    exact ⟨hslash.1, by decide⟩
  · simp
  · have hchars : ∀ name ∈ dirs ++ [stem ++ '.' :: ext], ∀ c ∈ name,
        c ∈ (b.discovery.relative p).text := by
      intro name hname c hc
      have hmem : Component.normal name ∈ (b.discovery.relative p).components := by
        rw [hrest.components]
        exact List.mem_map_of_mem hname
      exact Text.mem_of_mem_split (Path.mem_split_of_mem_components hmem).1 hc
    intro name hname c hc
    rcases List.mem_cons.1 hname with rfl | hname
    · exact hchars (name ++ '.' :: ext) (by simp) c (List.mem_append_left _ hc)
    · exact hchars name (List.mem_append_left _ hname) c hc

theorem liesAt_group {g : EntryGroup} (hroot : b.layout.root.isAbsolute = true)
    (h : '/' ∉ g.name) :
    (group g).LiesAt b ⟨"group".toList, [], g.name, "scss".toList⟩ := by
  have hgroup : Component.IsName "group".toList := isName_of_three (by decide) (by decide)
  have hinput : Component.IsName "intermediate".toList := isName_of_three (by decide) (by decide)
  obtain ⟨hne, hcomponents⟩ := components_folder b.layout hroot hgroup
  obtain ⟨hne', hcomponents'⟩ := components_folder b.layout hroot hinput
  have hcss : Component.IsName (g.name ++ ".css".toList) := by
    refine isName_of_three ?_ (by simp)
    rw [List.mem_append, not_or]
    exact ⟨h, by decide⟩
  have hfile : Component.IsName (g.name ++ ".scss".toList) := by
    refine isName_of_three ?_ (by simp)
    rw [List.mem_append, not_or]
    exact ⟨h, by decide⟩
  have hends := Path.endsIn_push hne hcss
  have hends' := Path.endsIn_push hne' hfile
  rw [hcomponents] at hends
  rw [hcomponents'] at hends'
  refine ⟨hends, hends', .inr rfl, ?_⟩
  intro name hname c hc
  rw [List.mem_singleton] at hname
  rw [hname] at hc
  exact List.mem_append_left _ hc

/-! ## Units that write one file -/

/-- The unit has a place of its own kind below the output directory. -/
def Placed (b : BuildPlan) : BuildUnit → Prop
  | entry p => ∃ dirs stem ext, b.discovery.EntryAt p dirs stem ext
  | group g => '/' ∉ g.name

theorem exists_liesAt (hroot : b.layout.root.isAbsolute = true)
    (hstyles : b.stylesDir.isAbsolute = true) (h : u.Placed b) : ∃ s, u.LiesAt b s := by
  cases u with
  | entry p =>
    obtain ⟨dirs, stem, ext, h⟩ := h
    exact ⟨_, liesAt_entry hroot hstyles h⟩
  | group g => exact ⟨_, liesAt_group hroot h⟩

/-- Entries at different places, or units of which one is a group. -/
def Distinct : BuildUnit → BuildUnit → Prop
  | entry p, entry q => p.components ≠ q.components
  | _, _ => True

theorem apart_comm : Apart b u v ↔ Apart b v u :=
  ⟨fun h p hp q hq hsame => h q hq p hp hsame.symm,
    fun h p hp q hq hsame => h q hq p hp hsame.symm⟩

private theorem stem_of_entryAt {d : Discovery} {p : Path} {dirs : List Text} {stem ext : Text}
    (h : d.EntryAt p dirs stem ext) : Path.stem (stem ++ '.' :: ext) = stem := by
  refine Path.stem_append h.stem_ne_nil ?_
  rcases h.extension with rfl | rfl <;> decide

theorem differInExtension_iff {p q : Path} {dirs dirs' : List Text} {stem stem' ext ext' : Text}
    (hstyles : b.stylesDir.isAbsolute = true) (hp : b.discovery.EntryAt p dirs stem ext)
    (hq : b.discovery.EntryAt q dirs' stem' ext') (hne : p.components ≠ q.components) :
    DifferInExtension (b.discovery.relative p) (b.discovery.relative q) ↔
      dirs = dirs' ∧ stem = stem' := by
  have hname : ∀ {r : Path} {dirs : List Text} {name : Text},
      r.components = (dirs ++ [name]).map .normal → r.fileName? = some name := by
    intro r dirs name h
    simp [Path.fileName?, h]
  have hp' := (hp.isRest_relative hstyles).components
  have hq' := (hq.isRest_relative hstyles).components
  have hrelative : (b.discovery.relative p).components ≠ (b.discovery.relative q).components := by
    intro h
    rw [hp', hq'] at h
    exact hne (by rw [hp.components, hq.components, h])
  rw [DifferInExtension, and_iff_right hrelative, hname hp', hname hq', hp', hq', Option.map_some,
    Option.map_some, stem_of_entryAt hp, stem_of_entryAt hq, Option.some.injEq]
  simp only [List.map_append, List.map_cons, List.map_nil, List.dropLast_concat]
  rw [List.map_inj_right fun _ _ => Component.normal.inj]

private theorem apart_entry_group {p : Path} {g : EntryGroup}
    (hroot : b.layout.root.isAbsolute = true) (hstyles : b.stylesDir.isAbsolute = true)
    (hp : (entry p).Placed b) (hg : (group g).Placed b) :
    Apart b (entry p) (group g) ↔ ¬ Clash b (entry p) (group g) := by
  obtain ⟨dirs, stem, ext, hp⟩ := hp
  have hentry := liesAt_entry hroot hstyles hp
  have hgroup := liesAt_group hroot hg
  have hcomponents := (hp.isRest_relative hstyles).components
  rw [apart_iff hentry hgroup, Spot.meet_iff hentry.folder hgroup.folder, not_iff_not, Clash,
    hcomponents]
  constructor
  · rintro (⟨hfolder, _⟩ | ⟨hpreserve, rfl, hfile⟩)
    · exact absurd hfolder (by simp)
    · refine ⟨hpreserve, ?_⟩
      simp only at hfile
      rw [hfile]
      rfl
  · rintro ⟨hpreserve, h⟩
    have hnames : dirs ++ [stem ++ '.' :: ext] = [BuildPlan.groupFile g] :=
      (List.map_inj_right fun _ _ => Component.normal.inj).1 h
    cases dirs with
    | nil =>
      rw [List.nil_append, List.cons.injEq] at hnames
      exact .inr ⟨hpreserve, rfl, hnames.1⟩
    | cons name dirs => simp at hnames

/-- Two units are apart unless they clash. -/
theorem apart_iff_not_clash (hroot : b.layout.root.isAbsolute = true)
    (hstyles : b.stylesDir.isAbsolute = true) (hu : u.Placed b) (hv : v.Placed b)
    (hne : u.Distinct v) : Apart b u v ↔ ¬ Clash b u v := by
  cases u with
  | entry p =>
    cases v with
    | entry q =>
      obtain ⟨dirs, stem, ext, hp⟩ := hu
      obtain ⟨dirs', stem', ext', hq⟩ := hv
      have hp' := liesAt_entry hroot hstyles hp
      have hq' := liesAt_entry hroot hstyles hq
      rw [apart_iff hp' hq', Spot.meet_iff hp'.folder hq'.folder, not_iff_not, Clash,
        differInExtension_iff hstyles hp hq hne]
      constructor
      · rintro (⟨_, hdirs, hstem⟩ | ⟨_, hdirs, hfile⟩)
        · exact ⟨hdirs, hstem⟩
        · -- One file name has one stem.
          have hstem := congrArg Path.stem hfile
          simp only [stem_of_entryAt hp, stem_of_entryAt hq] at hstem
          exact ⟨hdirs, hstem⟩
      · exact fun h => .inl ⟨rfl, h⟩
    | group g => exact apart_entry_group hroot hstyles hu hv
  | group g =>
    cases v with
    | entry p =>
      rw [apart_comm, apart_entry_group hroot hstyles hv hu]
      rfl
    | group g' =>
      have hg := liesAt_group hroot hu
      have hg' := liesAt_group hroot hv
      rw [apart_iff hg hg', Spot.meet_iff hg.folder hg'.folder, not_iff_not, Clash]
      constructor
      · rintro (⟨_, _, hname⟩ | ⟨_, _, hfile⟩)
        · exact hname
        · exact List.append_cancel_right hfile
      · exact fun h => .inl ⟨rfl, rfl, h⟩

end BuildUnit

end StyleBundle

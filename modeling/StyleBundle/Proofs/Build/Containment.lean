import StyleBundle.Proofs.Build.Collisions
import StyleBundle.Proofs.FileTree.Inside

/-!
# Builds that stay in their output directory

The files of an entry lie below the output directory.  Those of a group do if the name of the
group does not climb out of it (`EntryGroup.Inward`).  Then a build changes nothing outside of the
output directory, but for the directories on the way to it (`BuildPlan.build_stays_inside`).
-/

namespace StyleBundle

open FileTree

/-- Text without the separator goes to the last piece. -/
theorem Text.exists_split_append {separator : Char} (t : Text) {tail : Text}
    (h : separator ∉ tail) :
    ∃ last, split separator (t ++ tail) = (split separator t).dropLast ++ [last ++ tail] := by
  have htext := joinWith_split separator t
  rcases List.eq_nil_or_concat (split separator t) with hnil | ⟨front, last, hsplit⟩
  · exact absurd hnil (split_ne_nil separator t)
  · rw [List.concat_eq_append] at hsplit
    refine ⟨last, ?_⟩
    have hpieces : ∀ piece ∈ front ++ [last], separator ∉ piece := fun piece hpiece =>
      notMem_of_mem_split (hsplit ▸ hpiece)
    have hlast : separator ∉ last ++ tail := by
      rw [List.mem_append, not_or]
      exact ⟨hpieces last (by simp), h⟩
    rw [hsplit, List.dropLast_concat]
    rw [hsplit] at htext
    by_cases hfront : front = []
    · subst hfront
      rw [← htext]
      exact split_of_notMem hlast
    · rw [joinWith_append_singleton _ hfront] at htext
      rw [← htext, List.append_assoc, List.append_assoc, List.singleton_append,
        split_append_separator, split_of_notMem hlast,
        split_joinWith hfront fun piece hpiece => hpieces piece (by simp [hpiece])]

namespace Path

variable {base p up : Path}

/-- Text behind a pushed piece goes to the piece. -/
theorem push_append (p : Path) {piece tail : Text} (h : (Path.mk piece).isAbsolute = false)
    (h' : (Path.mk (piece ++ tail)).isAbsolute = false) :
    Path.mk ((p.push piece).text ++ tail) = p.push (piece ++ tail) := by
  simp only [push, join, h, h', Bool.false_eq_true, if_false]
  split_ifs
  · simp
  · simp

theorem StaysIn.isAbsolute (h : StaysIn base p) (hbase : base.isAbsolute = true) :
    p.isAbsolute = true := by
  obtain ⟨steps, hp, _⟩ := h
  rw [isAbsolute_iff_mem] at hbase ⊢
  rw [hp]
  exact List.mem_append_left _ hbase

/-- Directories that are made on the way to a path that stays in the base change nothing
outside. -/
theorem StaysIn.growthInvariant (h : StaysIn base p) (hup : up.components <+: p.components)
    (habs : up.isAbsolute = true) (t : FileTree) :
    GrowthInvariant up.ancestors (SameOutside base t) := by
  apply growthInvariant_sameOutside
  intro q hq
  refine ⟨(isAbsolute_of_mem_ancestors hq).trans habs, ?_⟩
  exact (h.of_above ((prefix_of_mem_ancestors hq).trans hup)).imp_left StaysIn.prefix_place

end Path

theorem updateInvariant_sameOutside {base : Path} {paths : List Path}
    (hbase : base.isAbsolute = true) (h : ∀ p ∈ paths, Path.StaysIn base p) (t : FileTree) :
    UpdateInvariant paths (SameOutside base t) := by
  refine ⟨fun p hp up hup => ?_, writeInvariant_sameOutside fun p hp => ?_⟩
  · obtain ⟨step, hstep⟩ := Path.components_of_parent? hup
    refine (h p hp).growthInvariant ⟨[step], hstep.symm⟩ ?_ t
    rw [Path.isAbsolute_of_parent? hup]
    exact (h p hp).isAbsolute hbase
  · exact ⟨(h p hp).isAbsolute hbase, (h p hp).prefix_place⟩

/-! ## Names of groups -/

/-- The name of the group leads from the directory of groups to no place outside of the output
directory.  The last piece of the name does not count, because it gets an extension. -/
def EntryGroup.Inward (g : EntryGroup) : Prop :=
  (Path.mk g.name).isAbsolute = false ∧
    Path.staysBelow 1 ((g.name.split '/').dropLast.filterMap Component.ofPiece?) = true

instance (g : EntryGroup) : Decidable g.Inward :=
  inferInstanceAs (Decidable (_ ∧ _))

namespace Layout

variable {l : Layout} {g : EntryGroup}

theorem staysIn_push_name (l : Layout) {name : Text} (h : Component.IsName name) :
    Path.StaysIn l.root (l.root.push name) :=
  Path.staysIn_of_names [name] (Path.components_push_name l.root h)

theorem sameOutside_prepare (l : Layout) (hroot : l.root.isAbsolute = true) (d : Disk) :
    SameOutside l.root d.tree (stateAfter l.prepare d).tree := by
  refine holds_after_prepare (fun directory hdir => ?_) ?_
  · have hin : Path.StaysIn l.root directory := by
      simp only [List.mem_cons, List.not_mem_nil, or_false] at hdir
      rcases hdir with rfl | rfl
      · exact l.staysIn_push_name (by decide)
      · exact l.staysIn_push_name (by decide)
    exact hin.growthInvariant List.prefix_rfl (hin.isAbsolute hroot) _
  · exact sameOutside_removeDirectory hroot d.tree

private theorem isAbsolute_append {name : Text} (tail : Text)
    (hname : (Path.mk name).isAbsolute = false) (htail : '/' ∉ tail) :
    (Path.mk (name ++ tail)).isAbsolute = false := by
  cases name with
  | nil => exact Path.isAbsolute_mk_of_notMem htail
  | cons c rest => exact hname

/-- A file that is called like the group has a name that ends like the file, behind directories
that do not climb out of the output directory. -/
theorem exists_components_push_group (hroot : l.root.isAbsolute = true) {folder : Text}
    (tail : Text) (hfolder : Component.IsName folder) (hg : g.Inward) (hslash : '/' ∉ tail)
    (hlong : 3 ≤ tail.length) :
    ∃ dirs last, Path.staysBelow 1 dirs = true ∧
      ((l.root.push folder).push (g.name ++ tail)).components =
        l.root.components ++ .normal folder :: (dirs ++ [last ++ tail].map .normal) := by
  obtain ⟨hrelative, hdirs⟩ := hg
  obtain ⟨last, hsplit⟩ := Text.exists_split_append g.name hslash
  have hname : Component.IsName (last ++ tail) := by
    have hmem : last ++ tail ∈ Text.split '/' (g.name ++ tail) := by simp [hsplit]
    refine BuildUnit.isName_of_three (Text.notMem_of_mem_split hmem) ?_
    rw [List.length_append]
    omega
  have hne := Path.text_ne_nil_of_isAbsolute (Path.isAbsolute_push hroot folder)
  have hcomponents := Path.components_join hne (isAbsolute_append tail hrelative hslash)
  refine ⟨(g.name.split '/').dropLast.filterMap Component.ofPiece?, last, hdirs, ?_⟩
  rw [Path.push, hcomponents, Path.components_push_name _ hfolder]
  simp only [hsplit, List.filterMap_append, List.filterMap_cons, hname.counts, List.filterMap_nil,
    List.append_assoc, List.singleton_append, List.map_cons, List.map_nil]

/-- A file that is called like the group stays in the output directory. -/
theorem staysIn_push_group (hroot : l.root.isAbsolute = true) {folder : Text} (tail : Text)
    (hfolder : Component.IsName folder) (hg : g.Inward) (hslash : '/' ∉ tail)
    (hlong : 3 ≤ tail.length) :
    Path.StaysIn l.root ((l.root.push folder).push (g.name ++ tail)) := by
  obtain ⟨dirs, last, hdirs, hcomponents⟩ :=
    exists_components_push_group hroot tail hfolder hg hslash hlong
  exact ⟨_, hcomponents, (Path.staysBelow_append_names 1 dirs _).trans hdirs⟩

end Layout

namespace BuildUnit

variable {b : BuildPlan} {u : BuildUnit}

/-- The unit writes inside the output directory alone. -/
def Inward (b : BuildPlan) : BuildUnit → Prop
  | entry p => ∃ dirs stem ext, b.discovery.EntryAt p dirs stem ext
  | group g => g.Inward

theorem Inward.staysIn (h : u.Inward b) (hroot : b.layout.root.isAbsolute = true)
    (hstyles : b.stylesDir.isAbsolute = true) {p : Path} (hp : p ∈ u.written b) :
    Path.StaysIn b.layout.root p := by
  cases u with
  | entry q =>
    obtain ⟨dirs, stem, ext, h⟩ := h
    obtain ⟨names, _, hnames⟩ := (liesAt_entry hroot hstyles h).exists_names hp
    exact Path.staysIn_of_names names hnames
  | group g =>
    have hgroup : Component.IsName "group".toList := by decide
    have hinput : Component.IsName "intermediate".toList := by decide
    have hcss := Layout.staysIn_push_group hroot ".css".toList hgroup h (by decide) (by decide)
    have hmap : Path.StaysIn b.layout.root (Layout.mapPath (b.layout.groupPath g.name)) := by
      have hname := Layout.isAbsolute_append ".css".toList h.1 (by decide)
      have hfull := Layout.isAbsolute_append (".css".toList ++ ".map".toList) h.1 (by decide)
      rw [← List.append_assoc] at hfull
      rw [Layout.mapPath, Layout.groupPath, Path.push_append _ hname hfull, List.append_assoc]
      exact Layout.staysIn_push_group hroot _ hgroup h (by decide) (by decide)
    have hfile := Layout.staysIn_push_group hroot ".scss".toList hinput h (by decide) (by decide)
    rw [written, List.mem_append, List.mem_cons, List.mem_singleton] at hp
    rcases hp with (rfl | rfl) | hp
    · exact hcss
    · exact hmap
    · split_ifs at hp
      · rw [List.mem_singleton.1 hp]
        exact hfile
      · cases hp

end BuildUnit

namespace BuildPlan

variable {tree : FileTree} {env : Environment} {path : Option Path} {overrides : Option Overrides}
  {c : Config} {run : Sass.Runner} {scratch : Path} {b : BuildPlan} {units : List BuildUnit}
  {d : Disk} {P : FileTree → Prop}

theorem inward_of_discover (hnamed : tree.WellNamed) (hstyles : b.stylesDir.isAbsolute = true)
    (hback : '\\' ∉ b.stylesDir.text) (hgroups : ∀ g ∈ b.groups, g.Inward)
    (h : b.discover tree = .ok units) : ∀ u ∈ units, u.Inward b := by
  intro u hu
  rcases cases_of_mem_discover h hu with ⟨p, groups, entries, hentries, hp, rfl⟩ | ⟨g, hg, rfl⟩
  · exact Discovery.exists_entryAt hnamed hstyles hback hentries hp
  · exact hgroups g hg

/-- What holds when the units start to run holds when the build ends, if the units keep it and the
manifest does. -/
theorem holds_after_build (hprepared : P (b.prepared d).tree)
    (hunits : ∀ units, b.discover (b.prepared d).tree = .ok units →
      ∀ u ∈ units, UpdateInvariant (u.written b) P)
    (hmanifest : UpdateInvariant [b.layout.manifestPath] P) : P (stateAfter b.build d).tree := by
  have hclear : clearCache d = .ok () d.clearCache := rfl
  rw [stateAfter, build, bind_of_ok hclear]
  refine holds_after_bind_of_ok (P := fun d : Disk => P d.tree) hprepared
    fun _ d₀ hprepare hd₀ => ?_
  rw [prepared, stateAfter_of_ok hprepare] at hunits
  refine holds_after_bind_of_ok (P := fun d : Disk => P d.tree)
    (keeps_asking (P := fun d : Disk => P d.tree) _ d₀ hd₀) fun groups d₁ hask hd₁ => ?_
  obtain ⟨hgroups, rfl⟩ := exists_of_asking_ok hask
  refine holds_after_bind_of_ok (P := fun d : Disk => P d.tree)
    (keeps_asking (P := fun d : Disk => P d.tree) _ d₁ hd₁) fun entries d₂ hask' hd₂ => ?_
  obtain ⟨hentries, rfl⟩ := exists_of_asking_ok hask'
  have hkept : ∀ u ∈ entries.map BuildUnit.entry ++ b.groups.map BuildUnit.group,
      Keeps (fun d : Disk => P d.tree) (u.attempt b) := fun u hu =>
    BuildUnit.keeps_attempt (hunits _ (bind_eq_ok_iff.2 ⟨groups, hgroups,
      bind_eq_ok_iff.2 ⟨entries, hentries, rfl⟩⟩) u hu).run
  have hsingles : Keeps (fun d : Disk => P d.tree)
      (entries.mapM fun p => attempt (.single (b.discovery.relative p)) (b.buildSingle p)) :=
    Keeps.mapM fun p hp => hkept (.entry p) (by simp [hp])
  have hbundles : Keeps (fun d : Disk => P d.tree)
      (b.groups.mapM fun group => attempt (.group group.name) (b.buildGroup group)) :=
    Keeps.mapM fun g hg => hkept (.group g) (by simp [hg])
  exact hsingles.bind (fun singles => hbundles.bind fun bundles =>
    (Layout.keeps_writeFile hmanifest.run (by simp) _).bind fun _ => keeps_pure _) _ hd₂

theorem sameOutside_prepared (hroot : b.layout.root.isAbsolute = true) (d : Disk) :
    SameOutside b.layout.root d.tree (b.prepared d).tree :=
  b.layout.sameOutside_prepare hroot d.clearCache

/-- Without backslashes in the directory of the stylesheets, and with groups whose names do not
climb out of the output directory, every file of an accepted configuration lies inside the output
directory.  A build changes nothing outside of it, whether it succeeds or not.  Only the
directories on the way to it may be new. -/
theorem build_stays_inside (hload : Config.load tree env path overrides = .ok c)
    (hplan : ofConfig c run scratch = .ok b) (hback : '\\' ∉ b.stylesDir.text)
    (hgroups : ∀ g ∈ b.groups, g.Inward) :
    (∀ (t : FileTree) (units : List BuildUnit), t.WellNamed → b.discover t = .ok units →
      ∀ p ∈ b.layout.manifestPath :: units.flatMap (BuildUnit.written b),
        p.normalize.startsWith b.layout.root.normalize = true) ∧
    ∀ d : Disk, d.tree.WellNamed →
      SameOutside b.layout.root d.tree (stateAfter b.build d).tree := by
  obtain ⟨hroot, hstyles⟩ := isAbsolute_of_ofConfig hload hplan
  have hmanifest : Path.StaysIn b.layout.root b.layout.manifestPath :=
    b.layout.staysIn_push_name (by decide)
  have hwritten (t : FileTree) (units : List BuildUnit) (hnamed : t.WellNamed)
      (h : b.discover t = .ok units) :
      ∀ u ∈ units, ∀ p ∈ u.written b, Path.StaysIn b.layout.root p := fun u hu p hp =>
    (inward_of_discover hnamed hstyles hback hgroups h u hu).staysIn hroot hstyles hp
  constructor
  · intro t units hnamed h p hp
    have hin : Path.StaysIn b.layout.root p := by
      rcases List.mem_cons.1 hp with rfl | hp
      · exact hmanifest
      · obtain ⟨u, hu, hp⟩ := List.mem_flatMap.1 hp
        exact hwritten t units hnamed h u hu p hp
    rw [Path.startsWith_normalize_iff (hin.isAbsolute hroot) hroot]
    exact hin.prefix_place
  · intro d hnamed
    refine holds_after_build (sameOutside_prepared hroot d) (fun units h u hu => ?_) ?_
    · exact updateInvariant_sameOutside hroot
        (hwritten _ units (wellNamed_prepared b hnamed) h u hu) d.tree
    · refine updateInvariant_sameOutside hroot (fun p hp => ?_) d.tree
      rw [List.mem_singleton.1 hp]
      exact hmanifest

/-! ### A group beside the output directory -/

/-- A name that climbs to the output directory, but not out of it. -/
def inName : Text := "../x".toList

/-- A name that climbs out of the output directory. -/
def outName : Text := "../../x".toList

/-- A configuration with one group, which has no members. -/
def farText (name : Text) : Text :=
  ("[project]\noutput_dir = \"o\"\n[compiler]\nbackend = \"passthrough\"\n" ++
    "[entry_groups]\n\"").toList ++ name ++ "\" = []\n".toList

/-- A project with nothing but its configuration. -/
def farTree (name : Text) : FileTree where
  entries := [(["r".toList], .directory),
    (["r".toList, Config.fileName], .file (.text (farText name)))]
  workingDirectory := ["r".toList]

/-- The files when the output directory is ready. -/
def farReady (name : Text) : FileTree where
  entries := (farTree name).entries ++ [(["r".toList, "o".toList], .directory),
    (["r".toList, "o".toList, "single".toList], .directory),
    (["r".toList, "o".toList, "group".toList], .directory)]
  workingDirectory := ["r".toList]

/-- The plan of the project. -/
def farPlan (name : Text) : BuildPlan :=
  { twinPlan with groups := [⟨name, []⟩] }

private theorem far_load {name : Text} (h : name = inName ∨ name = outName) :
    ∃ c, Config.load (farTree name) ⟨[], none⟩ none none = .ok c ∧
      ofConfig c strayRunner ⟨"/t".toList⟩ = .ok (farPlan name) := by
  apply exists_of_sections { twinConfig with groups := [⟨name, []⟩] }
  · rfl
  · rcases h with rfl | rfl <;> decide +kernel

theorem far_inside :
    ∃ c b, Config.load (farTree inName) ⟨[], none⟩ none none = .ok c ∧
      ofConfig c strayRunner ⟨"/t".toList⟩ = .ok b ∧ b.groups = [⟨inName, []⟩] ∧
      SameOutside b.layout.root (farTree inName)
        (stateAfter b.build ⟨farTree inName, []⟩).tree := by
  obtain ⟨c, hload, hplan⟩ := far_load (.inl rfl)
  obtain ⟨_, hsame⟩ := build_stays_inside hload hplan (by decide) (by decide)
  exact ⟨c, _, hload, hplan, rfl, hsame ⟨farTree inName, []⟩ ⟨by decide, by decide⟩⟩

/-- The files when the group is written. -/
def farDone : FileTree where
  entries := (farReady outName).entries ++ [(["r".toList, "x.css".toList], .file (.text []))]
  workingDirectory := ["r".toList]

/-- What is reported of the group whose name climbs. -/
def farOutput : BuiltOutput where
  entry := .group outName
  cssPath := ⟨"/r/o/group/../../x.css".toList⟩
  mapPath := none
  dependencies := []

-- Ordering does not compute, so the run is rewritten where it comes to ordering nothing.

private theorem far_entries :
    asking (fun tree => (farPlan outName).discovery.entries tree [⟨[]⟩]) ⟨farReady outName, []⟩ =
      .ok [] ⟨farReady outName, []⟩ := by
  have hentries : (farPlan outName).discovery.entries (farReady outName) [⟨[]⟩] =
      .ok (Discovery.ordered []) := rfl
  rw [asking, hentries, Discovery.ordered_nil]

private theorem far_members (name : Text) :
    asking (fun tree => (farPlan name).discovery.members tree []) ⟨farReady name, []⟩ =
      .ok [] ⟨farReady name, []⟩ := by
  have hmembers : (farPlan name).discovery.members (farReady name) [] =
      .ok (Discovery.ordered []) := rfl
  rw [asking, hmembers, Discovery.ordered_nil]

private theorem far_bundles :
    (farPlan outName).groups.mapM
        (fun group => attempt (.group group.name) ((farPlan outName).buildGroup group))
        ⟨farReady outName, []⟩ =
      .ok [.ok farOutput] ⟨farDone, []⟩ := by
  have hgroup : (farPlan outName).buildGroup ⟨outName, []⟩ ⟨farReady outName, []⟩ =
      .ok farOutput ⟨farDone, []⟩ := by
    rw [buildGroup, bind_of_ok (far_members _)]
    rfl
  have hattempt : attempt (.group outName) ((farPlan outName).buildGroup ⟨outName, []⟩)
      ⟨farReady outName, []⟩ = .ok (.ok farOutput) ⟨farDone, []⟩ := by
    rw [attempt, hgroup]
  have hgroups : (farPlan outName).groups = [⟨outName, []⟩] := rfl
  rw [hgroups, List.mapM_cons, bind_of_ok hattempt]
  rfl

/-- A group whose name climbs out of the output directory is written beside it. -/
theorem far_outside : ∃ c,
    Config.load (farTree outName) ⟨[], none⟩ none none = .ok c ∧
    ofConfig c strayRunner ⟨"/t".toList⟩ = .ok (farPlan outName) ∧
    (farPlan outName).layout.root = ⟨"/r/o".toList⟩ ∧
    (farTree outName).isFile ⟨"/r/x.css".toList⟩ = false ∧
    (stateAfter (farPlan outName).build ⟨farTree outName, []⟩).tree.isFile ⟨"/r/x.css".toList⟩ =
      true := by
  obtain ⟨c, hload, hplan⟩ := far_load (.inr rfl)
  refine ⟨c, hload, hplan, rfl, by decide, ?_⟩
  have hclear : clearCache ⟨farTree outName, []⟩ = .ok () ⟨farTree outName, []⟩ := rfl
  have hprepare : (farPlan outName).layout.prepare ⟨farTree outName, []⟩ =
      .ok () ⟨farReady outName, []⟩ := rfl
  have hpatterns : asking (fun _ => (farPlan outName).groupPatterns) ⟨farReady outName, []⟩ =
      .ok [⟨[]⟩] ⟨farReady outName, []⟩ := rfl
  rw [stateAfter, build, bind_of_ok hclear, bind_of_ok hprepare, bind_of_ok hpatterns,
    bind_of_ok far_entries, List.mapM_nil, pure_bind, bind_of_ok far_bundles]
  decide +kernel

end BuildPlan

end StyleBundle

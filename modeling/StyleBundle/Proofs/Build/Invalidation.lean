import StyleBundle.Proofs.Build.Pairs

/-!
# Building again after a change

The record of an output names its entry and lists its dependencies.  A change of any other file
leaves the stylesheet as it is, if the file is no global mixin, and if nothing was taken from the
output directory (`BuildPlan.css_of_rebuild`).

The files of the output directory are written by the build itself.  A unit that takes one of them
depends on all that another unit was made of, and its record does not list that.
-/

namespace StyleBundle

open FileTree

/-! ## The output directory -/

namespace Layout

variable {l : Layout} {d d' : Disk}

/-- A directory that was made is there. -/
theorem isDirectory_of_onFiles {p : Path} (hp : p.isAbsolute = true)
    (h : Building.onFiles p (makeDirectories p) d = .ok () d') :
    d'.tree.isDirectory p = true := by
  rw [Building.onFiles] at h
  split at h
  · rename_i tree hmake
    cases h
    exact isDirectory_makeDirectories (Path.text_ne_nil_of_isAbsolute hp) hmake
  · cases h

/-- Once the output directory is made, the way to it is there. -/
theorem hasWay_of_prepare (hroot : l.root.isAbsolute = true) (h : l.prepare d = .ok () d') :
    HasWay l.root d'.tree := by
  obtain ⟨_, d₁, _, h⟩ := exists_of_bind_ok h
  obtain ⟨_, d₂, _, h⟩ := exists_of_bind_ok h
  obtain ⟨place, hplace, _⟩ :=
    isDirectory_iff.1 (isDirectory_of_onFiles (Path.isAbsolute_push hroot _) h)
  exact hasWay_of_locate hroot (Path.components_push_name l.root (by decide)) (by simp) hplace

theorem keeps_cache_prepare (l : Layout) (cache : List (Path × Text)) :
    Keeps (fun d : Disk => d.cache = cache) l.prepare := by
  have hquiet : ∀ (p : Path) (step : FileTree.Action Unit),
      Keeps (fun d : Disk => d.cache = cache) (Building.onFiles p step) := fun p step =>
    Building.keeps_onFiles (fun _ _ h => h) p
  exact (hquiet _ _).bind fun _ => (hquiet _ _).bind fun _ => hquiet _ _

end Layout

namespace BuildPlan

variable {b : BuildPlan} {d d' : Disk}

theorem unique_prepared (b : BuildPlan) (h : d.tree.Unique) : (b.prepared d).tree.Unique :=
  Layout.holds_after_prepare (fun _ _ _ _ _ _ _ _ h => h.set _ _)
    (h.removeDirectory b.layout.root)

/-- When the units start to run, the disk is true to every tree that has its files outside of the
output directory. -/
theorem trueTo_prepared (hnamed : d.tree.WellNamed) (hunique : d.tree.Unique) {s : FileTree}
    (h : SameOutside b.layout.root s (b.prepared d).tree) :
    (b.prepared d).TrueTo b.layout.root s := by
  refine ⟨h, wellNamed_prepared b hnamed, unique_prepared b hunique, ?_⟩
  have hcache : (b.prepared d).cache = [] := b.layout.keeps_cache_prepare [] d.clearCache rfl
  simp [hcache]

end BuildPlan

/-- The stylesheet of a unit is not the manifest. -/
theorem BuildUnit.Inward.elsewhere_manifest {b : BuildPlan} {u : BuildUnit} (h : u.Inward b)
    (hroot : b.layout.root.isAbsolute = true) (hstyles : b.stylesDir.isAbsolute = true) :
    Elsewhere (u.cssPath b) b.layout.manifestPath := by
  cases u with
  | entry p =>
    obtain ⟨dirs, stem, ext, h⟩ := h
    exact (liesAt_entry hroot hstyles h).elsewhere_manifest (by simp [written])
  | group g =>
    have hgroup : Component.IsName "group".toList := by decide
    have hname : Component.IsName "manifest.json".toList := by decide
    obtain ⟨dirs, last, _, hcomponents⟩ :=
      Layout.exists_components_push_group hroot ".css".toList hgroup h (by decide) (by decide)
    rw [← List.cons_append, ← List.append_assoc] at hcomponents
    have hmanifest : b.layout.manifestPath.components =
        b.layout.root.components ++ ["manifest.json".toList].map .normal :=
      Path.components_push_name b.layout.root hname
    intro t hsame
    rw [cssPath, Layout.groupPath, Layout.groupDir, hcomponents, hmanifest, placeOf_append_names,
      placeOf_append_names] at hsame
    have hnames := (List.append_inj' hsame rfl).2
    have hlast := congrArg List.getLast? (List.cons.inj hnames).1
    rw [List.getLast?_append] at hlast
    cases hlast

/-! ## Runs of units -/

/-- A unit that succeeds in a build. -/
structure UnitRun where
  earlier : List BuildUnit
  unit : BuildUnit
  later : List BuildUnit
  output : BuiltOutput
  before : Disk
  after : Disk

namespace UnitRun

/-- No path that the unit uses leads through the output directory. -/
def UsesOutside (b : BuildPlan) (r : UnitRun) : Prop :=
  r.unit.UsesOutside b b.layout.root r.before.tree r.output

end UnitRun

namespace BuildPlan

variable {b : BuildPlan} {d d' : Disk} {r : UnitRun} {report : BuildReport}

/-- The build of the disk runs the unit behind the earlier ones, and the unit succeeds. -/
structure Runs (b : BuildPlan) (d : Disk) (r : UnitRun) : Prop where
  discover : b.discover (b.prepared d).tree = .ok (r.earlier ++ r.unit :: r.later)
  before : r.before = stateAfter (r.earlier.mapM (BuildUnit.attempt b)) (b.prepared d)
  step : r.unit.step b r.before = .ok r.output r.after

/-- Every output of a build comes from the run of a unit. -/
theorem exists_runs (h : b.build d = .ok report d') {output : BuiltOutput}
    (houtput : output ∈ report.outputs) : ∃ r, b.Runs d r ∧ r.output = output := by
  obtain ⟨units, outcomes, d₁, hunits, hrun, hreport, _⟩ := exists_of_build h
  rw [hreport, BuildReport.outputs_foldl_record] at houtput
  obtain ⟨outcome, houtcome, hok⟩ := List.mem_filterMap.1 houtput
  cases outcome with
  | error failure => cases hok
  | ok result =>
    cases hok
    obtain ⟨front, u, back, after, rest, rfl, hstep, _⟩ := exists_split_of_mem_mapM hrun houtcome
    exact ⟨⟨front, u, back, output, _, after⟩,
      ⟨hunits, rfl, BuildUnit.step_of_attempt hstep⟩, rfl⟩

namespace Runs

variable (h : b.Runs d r) (hroot : b.layout.root.isAbsolute = true)
  (hstyles : b.stylesDir.isAbsolute = true)
    (hinward : ∀ u ∈ r.earlier ++ r.unit :: r.later, u.Inward b)
include h hroot hstyles hinward

/-- Earlier units leave the disk true to a tree. -/
theorem trueTo {s : FileTree} (hway : HasWay b.layout.root s)
    (hprepared : (b.prepared d).TrueTo b.layout.root s) : r.before.TrueTo b.layout.root s := by
  rw [h.before]
  refine Keeps.mapM (fun u hu => BuildUnit.keeps_attempt ?_) _ hprepared
  refine runInvariant_trueTo hroot (fun p hp => ?_) hway
  exact (hinward u (List.mem_append_left _ hu)).staysIn hroot hstyles hp

/-- The stylesheet of a unit is there at the end of the build, if later units keep apart from
it. -/
theorem lookup_css (hbuild : b.build d = .ok report d')
    (hapart : ∀ v ∈ r.later, BuildUnit.Apart b r.unit v) {node : Node}
    (hcss : r.after.tree.lookup (r.unit.cssPath b) = .ok node) :
    d'.tree.lookup (r.unit.cssPath b) = .ok node := by
  obtain ⟨units, outcomes, d₁, hunits, hrun, _, hmanifest⟩ := exists_of_build hbuild
  obtain rfl : r.earlier ++ r.unit :: r.later = units :=
    Except.ok.inj (h.discover.symm.trans hunits)
  have hself := hinward r.unit (by simp)
  have hmem : r.unit.cssPath b ∈ r.unit.written b := by simp [BuildUnit.written]
  have habs : ∀ u ∈ r.earlier ++ r.unit :: r.later, ∀ p ∈ u.written b, p.isAbsolute = true :=
    fun u hu p hp => ((hinward u hu).staysIn hroot hstyles hp).isAbsolute hroot
  -- The units behind the one that ran.
  obtain ⟨rest, hlater⟩ : ∃ rest, r.later.mapM (BuildUnit.attempt b) r.after = .ok rest d₁ := by
    rw [List.mapM_append] at hrun
    obtain ⟨first, between, hearlier, hrun⟩ := exists_of_bind_ok hrun
    obtain ⟨more, last, hmore, hrun⟩ := exists_of_bind_ok hrun
    cases hrun
    obtain ⟨outcome, next, rest, hunit, hlater, _⟩ := exists_of_mapM_cons_ok hmore
    rw [← stateAfter_of_ok hearlier, ← h.before, BuildUnit.attempt, attempt, h.step] at hunit
    cases hunit
    exact ⟨rest, hlater⟩
  have hkeeps : Keeps (fun d : Disk => d.tree.lookup (r.unit.cssPath b) = .ok node)
      (r.later.mapM (BuildUnit.attempt b)) := by
    refine Keeps.mapM fun v hv => ?_
    have hP : UpdateInvariant (v.written b) fun t => t.lookup (r.unit.cssPath b) = .ok node :=
      updateInvariant_lookup fun q hq =>
        Path.elsewhere_of_normalize_ne (habs r.unit (by simp) _ hmem)
        (habs v (by simp [hv]) q hq) (hapart v hv _ hmem q hq)
    exact BuildUnit.keeps_attempt hP.run
  have hthere := hkeeps.of_ok hcss hlater
  have hlast : UpdateInvariant [b.layout.manifestPath] fun t =>
      t.lookup (r.unit.cssPath b) = .ok node := by
    refine updateInvariant_lookup fun q hq => ?_
    rw [List.mem_singleton.1 hq]
    exact hself.elsewhere_manifest hroot hstyles
  exact (Layout.keeps_writeFile hlast.run (by simp) _).of_ok hthere hmanifest

end Runs

/-- What a unit starts from are files, if these keep clear of the base. -/
theorem Runs.isFile_of_mem_starts {base : Path} {changed : List Location} (h : b.Runs d r)
    (halike : Alike base changed (b.prepared d).tree r.before.tree)
    (hclear : ∀ p ∈ r.unit.starts b r.before.tree, base.KeepsClear p) :
    ∀ p ∈ r.unit.starts b r.before.tree, r.before.tree.isFile p = true := by
  intro p hp
  have hmem : r.unit ∈ r.earlier ++ r.unit :: r.later := by simp
  rcases cases_of_mem_discover h.discover hmem with
    ⟨q, groups, entries, hentries, hq, hunit⟩ | ⟨g, _, hunit⟩
  · rw [hunit] at hp hclear
    obtain rfl : p = q := List.mem_singleton.1 hp
    rw [halike.isFile_eq (hclear p hp)]
    exact Discovery.isFile_of_mem_entries hentries hq
  · rw [hunit, BuildUnit.starts] at hp
    cases hmembers : b.discovery.members r.before.tree g.patterns with
    | error cause =>
      rw [hmembers] at hp
      cases hp
    | ok members =>
      rw [hmembers] at hp
      exact Discovery.isFile_of_mem_members hmembers hp

/-! ## Two builds -/

variable {tree : FileTree} {env : Environment} {path : Option Path} {overrides : Option Overrides}
  {c : Config} {run : Sass.Runner} {scratch : Path} {d'' : Disk} {report' : BuildReport}
  {place : Location} {old new : Content} {cache : List (Path × Text)}

theorem compiler_eq_passthrough_iff (h : ofConfig c run scratch = .ok b) :
    b.compilation.compiler = .passthrough ↔ c.compiler.backend = .passthrough := by
  rw [ofConfig] at h
  split at h
  · cases h
  · cases h
    rw [compilationOf]
    cases c.compiler.backend <;> simp

/-- At the end of a build the disk is still true to the tree that the units found. -/
theorem trueTo_of_build (hroot : b.layout.root.isAbsolute = true)
    (hstyles : b.stylesDir.isAbsolute = true) (hback : '\\' ∉ b.stylesDir.text)
    (hgroups : ∀ g ∈ b.groups, g.Inward) (hnamed : d.tree.WellNamed) (hunique : d.tree.Unique)
    (h : b.build d = .ok report d') :
    HasWay b.layout.root (b.prepared d).tree ∧
      Disk.TrueTo b.layout.root (b.prepared d).tree ⟨d'.tree, []⟩ := by
  have hway : HasWay b.layout.root (b.prepared d).tree := by
    obtain ⟨_, _, hclear, hrest⟩ := exists_of_bind_ok h
    cases hclear
    obtain ⟨_, d₀, hprepare, _⟩ := exists_of_bind_ok hrest
    rw [prepared, stateAfter_of_ok hprepare]
    exact Layout.hasWay_of_prepare hroot hprepare
  have hstart := trueTo_prepared hnamed hunique
    (SameOutside.refl b.layout.root (b.prepared d).tree)
  refine ⟨hway, ?_⟩
  rw [← stateAfter_of_ok h]
  refine holds_after_build (P := fun t => Disk.TrueTo b.layout.root (b.prepared d).tree ⟨t, []⟩)
    ⟨hstart.tree, hstart.named, hstart.unique, by simp⟩ (fun units hunits u hu => ?_) ?_
  · have hinward := inward_of_discover (wellNamed_prepared b hnamed) hstyles hback
      hgroups hunits u hu
    exact (runInvariant_trueTo hroot (fun p hp => hinward.staysIn hroot hstyles hp)
      hway).update []
  · refine (runInvariant_trueTo hroot (fun p hp => ?_) hway).update []
    rw [List.mem_singleton.1 hp]
    exact b.layout.staysIn_push_name (by decide)

/-- Building again after a change to one file.  Without a compiler, with groups whose names do not
climb out of the output directory, and without backslashes in the directory of the stylesheets,
every output of an accepted configuration comes from the run of a unit.  If the unit succeeds
again, it writes the same stylesheet, unless the changed file is its entry, one of its
dependencies or a global mixin, or a path that it uses leads through the output directory.  The
stylesheet is there at the end of a build if no later unit writes to it. -/
theorem css_of_rebuild (hload : Config.load tree env path overrides = .ok c)
    (hplan : ofConfig c run scratch = .ok b) (hbackend : c.compiler.backend = .passthrough)
    (hback : '\\' ∉ b.stylesDir.text) (hgroups : ∀ g ∈ b.groups, g.Inward)
    (hnamed : d.tree.WellNamed) (hunique : d.tree.Unique) (hbuild : b.build d = .ok report d')
    (hfile : d'.tree.node? place = some (.file old))
    (hbuild' : b.build ⟨d'.tree.set place (.file new), cache⟩ = .ok report' d'') :
    (∀ output ∈ report.outputs, ∃ r, b.Runs d r ∧ r.output = output) ∧
    (∀ output ∈ report'.outputs, ∃ r, b.Runs ⟨d'.tree.set place (.file new), cache⟩ r ∧
      r.output = output) ∧
    ∀ r r' : UnitRun, b.Runs d r → b.Runs ⟨d'.tree.set place (.file new), cache⟩ r' →
    r'.unit = r.unit →
      ¬ r.unit.Lists r.output place →
      (∀ p, b.compilation.Loads r.before.tree p ∨ b.compilation.Loads r'.before.tree p →
        p.place ≠ place) →
      r.UsesOutside b → r'.UsesOutside b →
      ∃ css, r.after.tree.lookup (r.unit.cssPath b) = .ok (.file (.text css)) ∧
        r'.after.tree.lookup (r.unit.cssPath b) = .ok (.file (.text css)) ∧
        ((∀ v ∈ r.later, BuildUnit.Apart b r.unit v) →
          d'.tree.lookup (r.unit.cssPath b) = .ok (.file (.text css))) ∧
        ((∀ v ∈ r'.later, BuildUnit.Apart b r.unit v) →
          d''.tree.lookup (r.unit.cssPath b) = .ok (.file (.text css))) := by
  refine ⟨fun _ => exists_runs hbuild, fun _ => exists_runs hbuild', ?_⟩
  intro r r' hr hr' hunit hunlisted hmixins huses huses'
  obtain ⟨hroot, hstyles⟩ := isAbsolute_of_ofConfig hload hplan
  obtain ⟨hway, htrue⟩ := trueTo_of_build hroot hstyles hback hgroups hnamed hunique hbuild
  -- The trees that the two builds start from differ in the changed file alone, as seen from
  -- outside.
  have hchange : Alike b.layout.root [place] d'.tree (d'.tree.set place (.file new)) :=
    alike_set b.layout.root hfile new
  have halike : Alike b.layout.root [place] (b.prepared d).tree (d'.tree.set place (.file new)) :=
    ((htrue.tree.alike hway).mono (List.nil_subset _)).trans hchange
  have hnamed' : (d'.tree.set place (.file new)).WellNamed :=
    htrue.named.set (htrue.named.entries _ (mem_entries_of_node? hfile)) _
  have hunique' : (d'.tree.set place (.file new)).Unique := htrue.unique.set _ _
  have hway' : HasWay b.layout.root (d'.tree.set place (.file new)) := hway.of_alike halike
  have hinward := inward_of_discover (wellNamed_prepared b hnamed) hstyles hback
    hgroups hr.discover
  have hinward' := inward_of_discover (wellNamed_prepared b hnamed') hstyles hback hgroups
    hr'.discover
  -- Each unit finds the files of the tree that its build started from.
  have hbefore := hr.trueTo hroot hstyles hinward hway
    (trueTo_prepared hnamed hunique (SameOutside.refl _ _))
  have hbefore' := hr'.trueTo hroot hstyles hinward' hway' (trueTo_prepared hnamed' hunique'
    (sameOutside_prepared hroot ⟨d'.tree.set place (.file new), cache⟩))
  have hfiles := hr.isFile_of_mem_starts (hbefore.tree.alike hway) huses.starts
  have hstep' := hr'.step
  rw [UnitRun.UsesOutside] at huses'
  rw [hunit] at hstep' huses'
  obtain ⟨css, hcss, hcss'⟩ := BuildUnit.exists_css hroot hbefore hbefore' hway hway' halike
    ((compiler_eq_passthrough_iff hplan).2 hbackend) hstyles hfiles hr.step hstep' huses huses'
    (by simpa using hunlisted) (by simpa using hmixins)
  refine ⟨css, hcss, hcss', fun hapart => ?_, fun hapart => ?_⟩
  · exact hr.lookup_css hroot hstyles hinward hbuild hapart hcss
  · rw [← hunit] at hcss' hapart ⊢
    exact hr'.lookup_css hroot hstyles hinward' hbuild' hapart hcss'

/-! ### A project with a mixin and a file that nothing uses -/

/-- A configuration with a directory of libraries and a global mixin in it. -/
def noteText : Text :=
  ("[project]\noutput_dir = \"o\"\nstyles_dir = \"s\"\n[resolve]\ninclude_paths = [\"l\"]\n" ++
    "[compiler]\nbackend = \"passthrough\"\nglobal_mixins = [\"../l/m.scss\"]\n").toList

/-- The location of the global mixin. -/
def noteMixin : Location := ["r".toList, "l".toList, "m.scss".toList]

/-- The location of the file that nothing uses. -/
def noteOther : Location := ["r".toList, "l".toList, "z.scss".toList]

/-- An entry that requires a second stylesheet, further files with the given texts, and what was
written. -/
def noteTree (files : List (Location × Text)) (written : List (Location × Node)) : FileTree where
  entries := [(["r".toList], .directory), (["r".toList, Config.fileName], .file (.text noteText)),
    (["r".toList, "s".toList], .directory),
    (["r".toList, "s".toList, "a.scss".toList], .file (.text "//= require 'b'\n.a".toList)),
    (["r".toList, "l".toList], .directory),
    (["r".toList, "l".toList, "b.scss".toList], .file (.text ".b".toList))] ++
    files.map (fun (place, text) => (place, .file (.text text))) ++ written
  workingDirectory := ["r".toList]

/-- The files at first. -/
def noteFirst : List (Location × Text) := [(noteMixin, "1".toList), (noteOther, "1".toList)]

/-- The files when the one that nothing uses was changed. -/
def noteSecond : List (Location × Text) := [(noteMixin, "1".toList), (noteOther, "2".toList)]

/-- The files when the mixin was changed. -/
def noteThird : List (Location × Text) := [(noteOther, "1".toList), (noteMixin, "2".toList)]

/-- What the configuration is read as. -/
def noteConfig : Config :=
  { twinConfig with
    project := ⟨⟨"/r".toList⟩, ⟨"/r/s".toList⟩, ⟨"/r/o".toList⟩⟩
    resolve := { twinConfig.resolve with includePaths := [⟨"/r/l".toList⟩] }
    compiler := { twinConfig.compiler with globalMixins := ["../l/m.scss".toList] } }

/-- The plan of the project. -/
def notePlan : BuildPlan :=
  (ofConfig noteConfig strayRunner ⟨"/t".toList⟩).toOption.get rfl

/-- The only stylesheet with an output. -/
def noteEntry : Path := ⟨"/r/s/a.scss".toList⟩

/-- What is reported of the stylesheet.  The mixin is not among its dependencies. -/
def noteOutput : BuiltOutput where
  entry := .single ⟨"a.scss".toList⟩
  cssPath := ⟨"/r/o/single/a.css".toList⟩
  mapPath := none
  dependencies := ["/r/l/b.scss".toList]

/-- The directories when the output directory is ready. -/
def noteReady : List (Location × Node) :=
  [(["r".toList, "o".toList], .directory),
    (["r".toList, "o".toList, "single".toList], .directory),
    (["r".toList, "o".toList, "group".toList], .directory)]

/-- The stylesheet behind a mixin with the given text. -/
def noteCss (mixin : Text) : Text :=
  "// Global mixin from: s/../l/m.scss\n".toList ++ mixin ++ "\n\n.b\n.a".toList

/-- What a build writes when the mixin has the given text. -/
def noteWritten (mixin : Text) : List (Location × Node) :=
  [(["r".toList, "o".toList, "single".toList, "a.css".toList], .file (.text (noteCss mixin))),
    (["r".toList, "o".toList, "manifest.json".toList],
      .file (.text (notePlan.manifest ⟨[noteOutput], []⟩).text))]

private theorem note_load :
    ∃ c, Config.load (noteTree noteFirst []) ⟨[], none⟩ none none = .ok c ∧
      ofConfig c strayRunner ⟨"/t".toList⟩ = .ok notePlan ∧
      c.compiler.backend = .passthrough := by
  obtain ⟨c, hload, hplan⟩ :
      ∃ c, Config.load (noteTree noteFirst []) ⟨[], none⟩ none none = .ok c ∧
      ofConfig c strayRunner ⟨"/t".toList⟩ = .ok notePlan := by
    apply exists_of_sections noteConfig
    · rfl
    · decide +kernel
  exact ⟨c, hload, hplan, (compiler_eq_passthrough_iff hplan).1 rfl⟩

/-- A build of one entry and no groups. -/
private theorem build_of_single {p : Path} {output : BuiltOutput} {d₀ d₁ : Disk}
    (hgroups : b.groups = []) (hprepare : b.layout.prepare d.clearCache = .ok () d₀)
    (hentries : b.discovery.entries d₀.tree [] = .ok [p])
    (hstep : b.buildSingle p d₀ = .ok output d₁)
    (hmanifest : b.layout.writeManifest (b.manifest ⟨[output], []⟩) d₁ = .ok () d') :
    b.build d = .ok ⟨[output], []⟩ d' ∧ b.Runs d ⟨[], .entry p, [], output, d₀, d₁⟩ := by
  have hprepared : b.prepared d = d₀ := stateAfter_of_ok hprepare
  have hpatterns : b.groupPatterns = .ok [] := by rw [groupPatterns, hgroups]; rfl
  constructor
  · have hclear : clearCache d = .ok () d.clearCache := rfl
    have hask : asking (fun _ => b.groupPatterns) d₀ = .ok [] d₀ := by rw [asking, hpatterns]
    have hask' : asking (fun tree => b.discovery.entries tree []) d₀ = .ok [p] d₀ := by
      rw [asking, hentries]
    have hattempt : attempt (.single (b.discovery.relative p)) (b.buildSingle p) d₀ =
        .ok (.ok output) d₁ := by
      rw [attempt, hstep]
    have hsingles : [p].mapM
        (fun p => attempt (.single (b.discovery.relative p)) (b.buildSingle p)) d₀ =
        .ok [.ok output] d₁ := by
      rw [List.mapM_cons, bind_of_ok hattempt, List.mapM_nil]
      rfl
    rw [build, bind_of_ok hclear, bind_of_ok hprepare, bind_of_ok hask, bind_of_ok hask',
      bind_of_ok hsingles, hgroups, List.mapM_nil, pure_bind]
    exact bind_of_ok hmanifest
  · refine ⟨?_, hprepared.symm, hstep⟩
    rw [hprepared, discover, hpatterns, hgroups]
    exact bind_eq_ok_iff.2 ⟨[], rfl, bind_eq_ok_iff.2 ⟨[p], hentries, rfl⟩⟩

-- A build does not compute as a whole, because entries are put in order.  Before and after that
-- it does.

/-- All versions of the files, with the text of the mixin. -/
def noteVersions : List (List (Location × Text) × Text) :=
  [(noteFirst, "1".toList), (noteSecond, "1".toList), (noteThird, "2".toList)]

private theorem note_candidates : ∀ version ∈ noteVersions,
    (notePlan.discovery.findAll
      (noteTree version.1 noteReady) Discovery.entryPatterns).toOption.any
      (fun found => decide (found.filter (fun p =>
        notePlan.discovery.isCandidate (noteTree version.1 noteReady) p && !false) =
          [noteEntry])) = true := by
  decide +kernel

private theorem note_run : ∀ version ∈ noteVersions,
    Succeeds (fun outcome : BuiltOutput × FileTree => outcome =
        (noteOutput, noteTree version.1 (noteReady ++ noteWritten version.2)))
      ((do
        let output ← notePlan.buildSingle noteEntry
        notePlan.layout.writeManifest (notePlan.manifest ⟨[output], []⟩)
        return (output, (← get).tree) : Building (BuiltOutput × FileTree))
        ⟨noteTree version.1 noteReady, []⟩) := by
  decide +kernel

private theorem note_build {start : FileTree} {files : List (Location × Text)} {mixin : Text}
    (h : (files, mixin) ∈ noteVersions)
    (hprepare : notePlan.layout.prepare ⟨start, []⟩ = .ok () ⟨noteTree files noteReady, []⟩) :
    ∃ d₁ cache, notePlan.build ⟨start, []⟩ =
        .ok ⟨[noteOutput], []⟩ ⟨noteTree files (noteReady ++ noteWritten mixin), cache⟩ ∧
      notePlan.Runs ⟨start, []⟩
        ⟨[], .entry noteEntry, [], noteOutput, ⟨noteTree files noteReady, []⟩, d₁⟩ := by
  have hentries : notePlan.discovery.entries (noteTree files noteReady) [] = .ok [noteEntry] := by
    obtain ⟨found, hfound, hfilter⟩ := exists_ok_of_any (note_candidates _ h)
    rw [Discovery.entries, hfound]
    change Except.ok (Discovery.ordered _) = _
    simp only [List.any_nil]
    rw [of_decide_eq_true hfilter, Discovery.ordered_singleton]
  obtain ⟨outcome, last, hrun, rfl⟩ := exists_of_succeeds (note_run _ h)
  obtain ⟨output, d₁, hstep, hrun⟩ := exists_of_bind_ok hrun
  obtain ⟨_, d₂, hmanifest, hrun⟩ := exists_of_bind_ok hrun
  have hend : EStateM.Result.ok (output, d₂.tree) d₂ =
      .ok (noteOutput, noteTree files (noteReady ++ noteWritten mixin)) last := hrun
  obtain ⟨hpair, _⟩ := EStateM.Result.ok.inj hend
  obtain ⟨rfl, htree⟩ := Prod.mk.inj hpair
  obtain ⟨hbuild, hruns⟩ :=
    build_of_single (d := ⟨start, []⟩) rfl hprepare hentries hstep hmanifest
  refine ⟨d₁, d₂.cache, ?_, hruns⟩
  rw [hbuild, ← htree]

/-- How the plan loads the mixin. -/
def noteMixins : Mixins := ⟨⟨"/r".toList⟩, ⟨"/r/s".toList⟩, ["../l/m.scss".toList]⟩

private theorem note_mixin : ∀ version ∈ noteVersions,
    (noteMixins.find? (noteTree version.1 noteReady) "../l/m.scss".toList).map Prod.fst =
      some ⟨"/r/s/../l/m.scss".toList⟩ := by
  decide +kernel

private theorem note_loads {files : List (Location × Text)} {mixin : Text}
    (h : (files, mixin) ∈ noteVersions) {p : Path}
    (hp : notePlan.compilation.Loads (noteTree files noteReady) p) :
    p = ⟨"/r/s/../l/m.scss".toList⟩ := by
  obtain ⟨mixins, name, text, hmixins, hname, hfind⟩ := hp
  obtain rfl : noteMixins = mixins := Option.some.inj hmixins
  obtain rfl : name = "../l/m.scss".toList := List.mem_singleton.1 hname
  have hpath := note_mixin _ h
  rw [hfind] at hpath
  exact Option.some.inj hpath

private theorem note_usesOutside {files : List (Location × Text)} {mixin : Text}
    (h : (files, mixin) ∈ noteVersions) :
    BuildUnit.UsesOutside notePlan notePlan.layout.root (.entry noteEntry)
      (noteTree files noteReady) noteOutput := by
  refine ⟨fun p hp => ?_, fun p hp => ?_, by decide⟩
  · rw [List.mem_singleton.1 hp]
    decide
  · rw [note_loads h hp]
    decide

private theorem note_lists {place : Location} (h : place ∈ [noteMixin, noteOther]) :
    ¬ BuildUnit.Lists (.entry noteEntry) noteOutput place := by
  rintro (⟨p, hp, rfl⟩ | ⟨text, htext, rfl⟩)
  · cases hp
    revert h
    decide
  · cases List.mem_singleton.1 htext
    revert h
    decide

/-- What a first build leaves. -/
def noteBuilt : FileTree := noteTree noteFirst (noteReady ++ noteWritten "1".toList)

private theorem note_first : ∃ d₁ cache,
    notePlan.build ⟨noteTree noteFirst [], []⟩ = .ok ⟨[noteOutput], []⟩ ⟨noteBuilt, cache⟩ ∧
      notePlan.Runs ⟨noteTree noteFirst [], []⟩
        ⟨[], .entry noteEntry, [], noteOutput, ⟨noteTree noteFirst noteReady, []⟩, d₁⟩ :=
  note_build (by decide) rfl

/-- A file that nothing uses is changed.  The stylesheet has the texts of the mixin, of its
dependency and of its entry, and stays as it is. -/
theorem note_rebuilt :
    ∃ c d' d'' css, Config.load (noteTree noteFirst []) ⟨[], none⟩ none none = .ok c ∧
      ofConfig c strayRunner ⟨"/t".toList⟩ = .ok notePlan ∧
      notePlan.build ⟨noteTree noteFirst [], []⟩ = .ok ⟨[noteOutput], []⟩ d' ∧
      d'.tree.node? noteOther = some (.file (.text "1".toList)) ∧
      notePlan.build ⟨d'.tree.set noteOther (.file (.text "2".toList)), []⟩ =
        .ok ⟨[noteOutput], []⟩ d'' ∧
      d'.tree.lookup noteOutput.cssPath = .ok (.file (.text css)) ∧
      d''.tree.lookup noteOutput.cssPath = .ok (.file (.text css)) := by
  obtain ⟨c, hload, hplan, hbackend⟩ := note_load
  obtain ⟨d₁, cache, hbuild, hruns⟩ := note_first
  have hfirst : (noteFirst, "1".toList) ∈ noteVersions := by decide
  have hsecond : (noteSecond, "1".toList) ∈ noteVersions := by decide
  have hfile : noteBuilt.node? noteOther = some (.file (.text "1".toList)) := by decide
  have hprepare : notePlan.layout.prepare
      ⟨noteBuilt.set noteOther (.file (.text "2".toList)), []⟩ =
      .ok () ⟨noteTree noteSecond noteReady, []⟩ := rfl
  obtain ⟨d₁', cache', hbuild', hruns'⟩ := note_build hsecond hprepare
  obtain ⟨_, _, hsame⟩ := css_of_rebuild hload hplan hbackend (by decide) (by decide)
    ⟨by decide, by decide⟩ (by decide) hbuild hfile hbuild'
  have hmixins : ∀ p, notePlan.compilation.Loads (noteTree noteFirst noteReady) p ∨
      notePlan.compilation.Loads (noteTree noteSecond noteReady) p → p.place ≠ noteOther := by
    intro p hp
    rw [hp.elim (note_loads hfirst) (note_loads hsecond)]
    decide
  obtain ⟨css, _, _, hcss, hcss'⟩ := hsame _ _ hruns hruns' rfl (note_lists (by decide)) hmixins
    (note_usesOutside hfirst) (note_usesOutside hsecond)
  exact ⟨c, _, _, css, hload, hplan, hbuild, hfile, hbuild', hcss (by simp), hcss' (by simp)⟩

/-- The mixin is changed.  The stylesheet is another one, though the mixin is neither the entry
nor among the dependencies. -/
theorem note_unlisted :
    ∃ c d' d'', Config.load (noteTree noteFirst []) ⟨[], none⟩ none none = .ok c ∧
      ofConfig c strayRunner ⟨"/t".toList⟩ = .ok notePlan ∧ c.compiler.backend = .passthrough ∧
      notePlan.build ⟨noteTree noteFirst [], []⟩ = .ok ⟨[noteOutput], []⟩ d' ∧
      d'.tree.node? noteMixin = some (.file (.text "1".toList)) ∧
      ¬ BuildUnit.Lists (.entry noteEntry) noteOutput noteMixin ∧
      notePlan.build ⟨d'.tree.set noteMixin (.file (.text "2".toList)), []⟩ =
        .ok ⟨[noteOutput], []⟩ d'' ∧
      d'.tree.lookup noteOutput.cssPath = .ok (.file (.text (noteCss "1".toList))) ∧
      d''.tree.lookup noteOutput.cssPath = .ok (.file (.text (noteCss "2".toList))) := by
  obtain ⟨c, hload, hplan, hbackend⟩ := note_load
  obtain ⟨d₁, cache, hbuild, _⟩ := note_first
  have hthird : (noteThird, "2".toList) ∈ noteVersions := by decide
  have hprepare : notePlan.layout.prepare
      ⟨noteBuilt.set noteMixin (.file (.text "2".toList)), []⟩ =
      .ok () ⟨noteTree noteThird noteReady, []⟩ := rfl
  obtain ⟨d₁', cache', hbuild', _⟩ := note_build hthird hprepare
  exact ⟨c, _, _, hload, hplan, hbackend, hbuild, rfl, note_lists (by decide), hbuild', rfl, rfl⟩

end BuildPlan

end StyleBundle

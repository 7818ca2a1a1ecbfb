import Mathlib.Data.List.Infix
import StyleBundle.Build.Plan
import StyleBundle.Proofs.Config.Accepted
import StyleBundle.Proofs.FileTree.Inside
import StyleBundle.Proofs.Resolve.Settings

/-!
# What preparing the output directory removes

A build starts with removing its output directory.  This takes away every file at or below the
place that the path leads to, and nothing else (`Layout.lookup_prepare`, `Layout.isFile_prepare`).

A configuration is only asked whether its output directory and its root are spelled alike.  So the
output directory may still be the root, or lie above the stylesheets.
-/

namespace StyleBundle

namespace Building

theorem tree_onFiles (path : Path) (step : FileTree.Action Unit) (d : Disk) :
    (stateAfter (onFiles path step) d).tree = stateAfter step d.tree := by
  rw [stateAfter, stateAfter, onFiles]
  cases step d.tree <;> rfl

/-- Work on the files leaves the cache as it is. -/
theorem keeps_onFiles {P : Disk → Prop} {step : FileTree.Action Unit}
    (h : ∀ cache, Keeps (fun t => P ⟨t, cache⟩) step) (path : Path) :
    Keeps P (onFiles path step) := by
  intro d hd
  have hafter := h d.cache d.tree hd
  rw [stateAfter] at hafter
  rw [stateAfter, onFiles]
  cases hrun : step d.tree with
  | ok _ tree =>
    rw [hrun] at hafter
    exact hafter
  | error cause tree =>
    rw [hrun] at hafter
    exact hafter

end Building

namespace Layout

open FileTree

variable {l : Layout} {d : Disk} {p : Path}

/-- A directory that is not there leaves nothing to do. -/
theorem stateAfter_clear (l : Layout) (t : FileTree) :
    stateAfter l.clear t = stateAfter (removeDirectory l.root) t := by
  rw [stateAfter, stateAfter, clear]
  cases removeDirectory l.root t with
  | ok _ t' => rfl
  | error cause t' =>
    cases cause with
    | os cause => cases cause <;> rfl
    | notUtf8 => rfl
    | nulInPath => rfl
    | described text => rfl

/-- What holds once the directory is removed still holds at the end, if new directories keep
it. -/
theorem holds_after_prepare {P : FileTree → Prop}
    (hP : ∀ directory ∈ [l.singleDir, l.groupDir], GrowthInvariant directory.ancestors P)
    (h : P (stateAfter (removeDirectory l.root) d.tree)) :
    P (stateAfter l.prepare d).tree := by
  have hmake : ∀ directory ∈ [l.singleDir, l.groupDir], Keeps (fun d : Disk => P d.tree)
      (Building.onFiles directory (makeDirectories directory)) := fun directory hdir =>
    Building.keeps_onFiles (fun _ => keeps_makeDirectories (hP directory hdir)) directory
  refine holds_after_bind (P := fun d : Disk => P d.tree) ?_ fun _ =>
    (hmake l.singleDir (by simp)).bind fun _ => hmake l.groupDir (by simp)
  rw [Building.tree_onFiles, stateAfter_clear]
  exact h

/-- An entry outside of the output directory stays. -/
theorem lookup_prepare {node : Node} (hroot : l.root.isAbsolute = true) (hp : p.isAbsolute = true)
    (hnormal : p.normalize = p) (h : d.tree.lookup p = .ok node)
    (hout : d.tree.isDirectory l.root = true → p.startsWith l.root.normalize = false) :
    (stateAfter l.prepare d).tree.lookup p = .ok node := by
  refine lookup_of_kept hp ?_ h fun q node hq hnode => ?_
  · obtain ⟨names, _, hnames⟩ := Path.exists_names_of_isAbsolute hp
    rw [← hnormal, hnames]
    simp
  · refine holds_after_prepare (fun _ _ => growthInvariant_node? _ q node) ?_
    rw [node?_removeDirectory, hnode]
    intro place hplace hdir hbelow
    have hstart := hout (isDirectory_iff.2 ⟨place, hplace, hdir⟩)
    have habove := hbelow.trans hq
    rw [locate_eq_placeOf hplace, Path.placeOf_eq_place _ hroot, Path.placeOf_eq_place _ hp,
      ← Path.startsWith_normalize_iff hp hroot, hnormal, hstart] at habove
    cases habove

/-- No file stays at or below the output directory. -/
theorem isFile_prepare (hroot : l.root.isAbsolute = true) (hp : p.isAbsolute = true)
    (hnormal : p.normalize = p) (hdir : d.tree.isDirectory l.root = true)
    (hin : p.startsWith l.root.normalize = true) :
    (stateAfter l.prepare d).tree.isFile p = false := by
  obtain ⟨place, hplace, hdirectory⟩ := isDirectory_iff.1 hdir
  have hbelow : place <+: p.place := by
    rw [locate_eq_placeOf hplace, Path.placeOf_eq_place _ hroot,
      ← Path.startsWith_normalize_iff hp hroot, hnormal]
    exact hin
  have hgone := holds_after_prepare (fun _ _ => growthInvariant_no_file _ _)
    (no_file_removeDirectory hplace hdirectory hbelow)
  rw [← Bool.not_eq_true]
  intro hfile
  obtain ⟨place', content, hplace', hnode⟩ := exists_file_of_isFile hfile
  rw [locate_eq_placeOf hplace', Path.placeOf_eq_place _ hp] at hnode
  exact hgone content hnode

end Layout

/-! ## Accepted configurations -/

/-- The sections that a plan is made from. -/
def Config.sections (c : Config) :
    ProjectPaths × ResolveOptions × List EntryGroup × CompilerOptions :=
  (c.project, c.resolve, c.groups, c.compiler)

namespace BuildPlan

variable {tree : FileTree} {env : Environment} {path : Option Path} {overrides : Option Overrides}
  {c : Config} {run : Sass.Runner} {scratch : Path} {b : BuildPlan}

/-- A configuration with a plan has an absolute root. -/
theorem of_ofConfig (h : ofConfig c run scratch = .ok b) :
    c.project.root.isAbsolute = true ∧ b.layout.root = c.project.outputDir := by
  cases hsettings : c.settings with
  | error cause =>
    rw [ofConfig, hsettings] at h
    cases h
  | ok settings =>
    rw [ofConfig, hsettings] at h
    cases h
    exact ⟨Settings.Draft.isAbsolute_root_of_build hsettings, rfl⟩

/-- Configurations with the same sections have the same plan. -/
theorem ofConfig_congr {c' : Config} (h : c.sections = c'.sections) :
    ofConfig c run scratch = ofConfig c' run scratch := by
  obtain ⟨file, project, resolve, groups, compiler, configPath⟩ := c
  cases h
  rfl

/-- A configuration is loaded and has a plan, if its sections are those of another one with this
plan. -/
theorem exists_of_sections (expected : Config) (hplan : ofConfig expected run scratch = .ok b)
    (hload : (Config.load tree env path overrides).toOption.any
      (fun c => decide (c.sections = expected.sections)) = true) :
    ∃ c, Config.load tree env path overrides = .ok c ∧ ofConfig c run scratch = .ok b := by
  obtain ⟨c, hc, hsections⟩ := exists_ok_of_any hload
  refine ⟨c, hc, ?_⟩
  rw [ofConfig_congr (of_decide_eq_true hsections), hplan]

/-- The output directory of an accepted configuration is not spelled like the root, and without
steps up it is not the root.  Preparing it spares every entry outside of it.  It removes every
file in it, whatever the file is. -/
theorem prepare_spares_exactly_outside (hload : Config.load tree env path overrides = .ok c)
    (hplan : ofConfig c run scratch = .ok b) :
    b.layout.root.components ≠ c.project.root.components ∧
      (.parent ∉ b.layout.root.components → .parent ∉ c.project.root.components →
        b.layout.root.normalize ≠ c.project.root.normalize) ∧
      ∀ (d : Disk) (p : Path) (node : Node), p.isAbsolute = true → p.normalize = p →
        d.tree.lookup p = .ok node →
          ((d.tree.isDirectory b.layout.root = true →
            p.startsWith b.layout.root.normalize = false) →
            (stateAfter b.layout.prepare d).tree.lookup p = .ok node) ∧
          (d.tree.isDirectory b.layout.root = true → p.startsWith b.layout.root.normalize = true →
            (stateAfter b.layout.prepare d).tree.isFile p = false) := by
  obtain ⟨hroot, hlayout⟩ := of_ofConfig hplan
  have houtput : b.layout.root.isAbsolute = true := by
    rw [hlayout]
    exact Config.isAbsolute_outputDir hload hroot
  have hne : b.layout.root.components ≠ c.project.root.components := by
    rw [hlayout]
    exact Config.outputDir_ne_root hload
  refine ⟨hne, fun hup hup' heq => hne ?_, fun d p node hp hnormal h => ⟨?_, ?_⟩⟩
  · rw [← Path.components_normalize_of_no_parent houtput hup, heq,
      Path.components_normalize_of_no_parent hroot hup']
  · exact Layout.lookup_prepare houtput hp hnormal h
  · exact Layout.isFile_prepare houtput hp hnormal

/-! ### An output directory that is the root after all -/

/-- A project with a stylesheet, and with the output of an earlier build. -/
def strayTree : FileTree where
  entries := [(["r".toList], .directory), (["r".toList, "public".toList], .directory),
    (["r".toList, "public".toList, "old.css".toList], .file (.text ".b".toList)),
    (["r".toList, "app".toList], .directory),
    (["r".toList, "app".toList, "assets".toList], .directory),
    (["r".toList, "app".toList, "assets".toList, "stylesheets".toList], .directory),
    (["r".toList, "app".toList, "assets".toList, "stylesheets".toList, "a.scss".toList],
      .file (.text ".a".toList))]
  workingDirectory := ["r".toList]

/-- The stylesheet. -/
def strayEntry : Path := ⟨"/r/app/assets/stylesheets/a.scss".toList⟩

/-- What an earlier build has written. -/
def strayOld : Path := ⟨"/r/public/old.css".toList⟩

/-- Settings of the command line with the given output directory. -/
def strayOverrides (outputDir : Text) : Overrides where
  root := none
  outputDir := some ⟨outputDir⟩
  sassBinary := none
  sourceMap := none
  backend := some .passthrough

/-- The configuration with the given output directory. -/
def strayConfig (outputDir : Text) : Config :=
  (Config.withoutFile strayTree.workingDirectory.path).override (strayOverrides outputDir)

/-- No program can be started. -/
def strayRunner : Sass.Runner := fun _ _ => .error (.os .noEntry)

/-- An output directory beside the stylesheet spares it.  An old file in it is gone. -/
theorem stray_spared :
    ∃ b, Config.load strayTree ⟨[], none⟩ none (some (strayOverrides "app/../public".toList)) =
        .ok (strayConfig "app/../public".toList) ∧
      ofConfig (strayConfig "app/../public".toList) strayRunner ⟨"/t".toList⟩ = .ok b ∧
      (stateAfter b.layout.prepare ⟨strayTree, []⟩).tree.lookup strayEntry =
        .ok (.file (.text ".a".toList)) ∧
      (stateAfter b.layout.prepare ⟨strayTree, []⟩).tree.isFile strayOld = false := by
  have hload : Config.load strayTree ⟨[], none⟩ none
      (some (strayOverrides "app/../public".toList)) =
      .ok (strayConfig "app/../public".toList) := rfl
  obtain ⟨b, hplan, hroot⟩ : ∃ b,
      ofConfig (strayConfig "app/../public".toList) strayRunner ⟨"/t".toList⟩ = .ok b ∧
        b.layout.root = (strayConfig "app/../public".toList).project.outputDir := ⟨_, rfl, rfl⟩
  obtain ⟨_, _, hspares⟩ := prepare_spares_exactly_outside hload hplan
  have hentry := hspares ⟨strayTree, []⟩ strayEntry (.file (.text ".a".toList)) (by decide)
    (by decide) (by decide)
  have hold := hspares ⟨strayTree, []⟩ strayOld (.file (.text ".b".toList))
    (by decide) (by decide) (by decide)
  rw [hroot] at hentry hold
  exact ⟨b, hload, hplan, hentry.1 fun _ => by decide, hold.2 (by decide) (by decide)⟩

/-- The folded output directory is the root, and the stylesheet is gone. -/
theorem stray_removed :
    ∃ c b, Config.load strayTree ⟨[], none⟩ none (some (strayOverrides "app/..".toList)) = .ok c ∧
      ofConfig c strayRunner ⟨"/t".toList⟩ = .ok b ∧
      c.project.outputDir.normalize = c.project.root.normalize ∧
      strayTree.isFile strayEntry = true ∧
      (stateAfter b.layout.prepare ⟨strayTree, []⟩).tree.isFile strayEntry = false := by
  refine ⟨strayConfig "app/..".toList, _, rfl, rfl, ?_, ?_, ?_⟩
  · decide
  · decide
  · decide

end BuildPlan

end StyleBundle

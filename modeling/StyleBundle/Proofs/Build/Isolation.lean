import StyleBundle.Proofs.Build.Accounting
import StyleBundle.Proofs.Build.Invalidation
import StyleBundle.Proofs.Config.Groups
import StyleBundle.Proofs.Source.Grown

/-!
# Units that do not see each other

A unit runs on the files that the units in front of it have left, and with the texts that they
have read.  If it reads nothing that one of them wrote, then it expands to what it expands to
alone, on the files that the build started from (`BuildUnit.resultOf_expansion_eq`).  Groups whose
names do not climb out of the output directory write nothing else, so it is enough that the unit
reads nothing from there.
-/

namespace StyleBundle

open FileTree

/-! ## What is found -/

namespace Discovery

variable (finder : Discovery)

private theorem find_cases (pattern : Text) :
    (∃ cause, ∀ t, finder.find t pattern = .error cause) ∨
    ∀ t, ∃ paths, finder.find t pattern = .ok paths := by
  simp only [find, Glob.find]
  cases Glob.route (Glob.escape finder.stylesDir.display ++ '/' :: pattern) with
  | error cause => exact .inl ⟨_, fun t => rfl⟩
  | ok route => exact .inr fun t => ⟨_, rfl⟩

private theorem mapM_find_cases (patterns : List Text) :
    (∃ cause, ∀ t, patterns.mapM (finder.find t) = .error cause) ∨
      ∀ t, ∃ found, patterns.mapM (finder.find t) = .ok found := by
  induction patterns with
  | nil => exact .inr fun t => ⟨[], rfl⟩
  | cons pattern patterns ih =>
    simp only [List.mapM_cons]
    rcases finder.find_cases pattern with ⟨cause, hfirst⟩ | hfirst
    · exact .inl ⟨cause, fun t => by rw [hfirst t]; rfl⟩
    rcases ih with ⟨cause, hrest⟩ | hrest
    · refine .inl ⟨cause, fun t => ?_⟩
      obtain ⟨paths, hpaths⟩ := hfirst t
      rw [hpaths, hrest t]
      rfl
    · refine .inr fun t => ?_
      obtain ⟨paths, hpaths⟩ := hfirst t
      obtain ⟨found, hfound⟩ := hrest t
      rw [hpaths, hfound]
      exact ⟨_, rfl⟩

/-- Whether patterns can be read does not depend on the files. -/
theorem members_cases (patterns : List Text) :
    (∃ cause, ∀ t, finder.members t patterns = .error cause) ∨
      ∀ t, ∃ members, finder.members t patterns = .ok members := by
  rcases finder.mapM_find_cases patterns with ⟨cause, hall⟩ | hall
  · exact .inl ⟨cause, fun t => by rw [members, findAll, hall t]; rfl⟩
  · refine .inr fun t => ?_
    obtain ⟨found, hfound⟩ := hall t
    rw [members, findAll, hfound]
    exact ⟨_, rfl⟩

end Discovery

/-- Members with the same components are expanded alike. -/
theorem BuildPlan.expandMembers_congr (b : BuildPlan) {members members' : List Path}
    (h : members.map Path.components = members'.map Path.components) :
    b.expandMembers members = b.expandMembers members' := by
  induction members generalizing members' with
  | nil =>
    cases members' with
    | nil => rfl
    | cons p' rest' => cases h
  | cons p rest ih =>
    cases members' with
    | nil => cases h
    | cons p' rest' =>
      obtain ⟨hp, hrest⟩ := List.cons.inj h
      simp only [expandMembers, Catalog.bundleFile, Path.normalize_congr hp, ih hrest]

/-! ## What is read -/

namespace BuildPlan

/-- The paths that a request reads from the disk. -/
def readsOf (b : BuildPlan) (r : Request) (d : Disk) : List Path :=
  (stateAfter (r.run ⟨b.settings, d.source⟩) .start).reads.map Prod.fst

/-- The paths that the members of a group read one after the other, up to the first one that
fails. -/
def readsOfMembers (b : BuildPlan) : List Path → Disk → List Path
  | [], _ => []
  | p :: rest, d =>
    b.readsOf (.bundle p) d ++
      match b.expanding (·.bundleFile p) d with
      | .ok _ d' => b.readsOfMembers rest d'
      | .error _ _ => []

end BuildPlan

namespace BuildUnit

/-- The paths that the unit reads when it is expanded. -/
def reads (b : BuildPlan) (d : Disk) : BuildUnit → List Path
  | entry p => b.readsOf (.file p) d
  | group g => b.readsOfMembers ((group g).starts b d.tree) d

/-- Expands the files that the unit is made of in some tree. -/
def expansionOf (b : BuildPlan) (shown : FileTree) : BuildUnit → Building Expanded
  | entry p => b.expanding (·.expandFile p)
  | group g => do
    let members ← BuildPlan.asking fun _ => b.discovery.members shown g.patterns
    b.expandMembers members

theorem resultOf_expansion (b : BuildPlan) (u : BuildUnit) (d : Disk) :
    resultOf (u.expansion b) d = resultOf (u.expansionOf b d.tree) d := by
  cases u <;> rfl

/-- A unit is made of the same files in alike trees, if the paths of all of them keep clear. -/
theorem expansionOf_eq_of_alike {b : BuildPlan} {u : BuildUnit} {base : Path}
    {changed : List Location} {t t' : FileTree} (halike : Alike base changed t t')
    (hnamed : t.WellNamed) (hnamed' : t'.WellNamed) (hstyles : b.stylesDir.isAbsolute = true)
    (hclear : ∀ p ∈ u.starts b t ++ u.starts b t', base.KeepsClear p) :
    u.expansionOf b t = u.expansionOf b t' := by
  cases u with
  | entry p => rfl
  | group g =>
    rcases b.discovery.members_cases g.patterns with ⟨cause, hmembers⟩ | hmembers
    · rw [expansionOf, expansionOf, hmembers t, hmembers t']
    · obtain ⟨members, hfound⟩ := hmembers t
      obtain ⟨members', hfound'⟩ := hmembers t'
      rw [starts, starts, hfound, hfound', List.forall_mem_append] at hclear
      have hsame := Discovery.members_components_eq halike hnamed hnamed' hstyles hfound
        hfound' hclear.1 hclear.2
      funext d
      rw [expansionOf, expansionOf, hfound, hfound']
      exact congrFun (b.expandMembers_congr hsame) d

end BuildUnit

namespace BuildUnit

variable {b : BuildPlan} {g : EntryGroup} {members : List Path} {d : Disk}

theorem starts_group {t : FileTree} (h : b.discovery.members t g.patterns = .ok members) :
    (group g).starts b t = members := by
  rw [starts, h]
  rfl

theorem reads_group (h : b.discovery.members d.tree g.patterns = .ok members) :
    (group g).reads b d = b.readsOfMembers members d := by
  rw [reads, starts_group h]

theorem resultOf_expansionOf_group {t : FileTree}
    (h : b.discovery.members t g.patterns = .ok members) :
    resultOf ((group g).expansionOf b t) d = resultOf (b.expandMembers members) d := by
  have hask : BuildPlan.asking (fun _ => b.discovery.members t g.patterns) d = .ok members d := by
    rw [BuildPlan.asking, h]
  rw [resultOf, expansionOf, bind_of_ok hask, resultOf]

end BuildUnit

/-! ## Disks while units run -/

/-- A disk stays grown from a tree while units write to the locations. -/
theorem runInvariant_grownFrom {paths : List Path} {written : List Location} {s : FileTree}
    (hclosed : s.Closed) (h : ∀ p ∈ paths, Hits written s p) :
    RunInvariant paths (Disk.GrownFrom written s) := by
  have hset : ∀ {t : FileTree} {cache : List (Path × Text)} {p : Path} {node : Node},
      Disk.GrownFrom written s ⟨t, cache⟩ →
      Grown written s (t.set (t.placeOf p.components) node) →
      Disk.GrownFrom written s ⟨t.set (t.placeOf p.components) node, cache⟩ := fun hgrown htree =>
    ⟨htree, hgrown.named.set (fun _ hname => hgrown.named.isName_of_mem_placeOf hname) _,
      hgrown.unique.set _ _, hgrown.cache⟩
  refine ⟨fun cache => ⟨?_, ?_⟩, fun d reads hreads hgrown => hgrown.rememberAll hclosed hreads⟩
  · intro p hp up hup t q hq hne hparent hfree hgrown
    exact hset hgrown (hgrown.tree.set_directory hgrown.unique hne hfree)
  · intro t text p hp hne hparent hdir hgrown
    have hplace : t.placeOf p.components ∈ written := by
      rw [hgrown.tree.placeOf_eq]
      exact h p hp
    exact hset hgrown (hgrown.tree.set_text hgrown.unique hne hplace hdir text)

namespace BuildPlan

variable {b : BuildPlan} {d d' : Disk} {s : FileTree} {written : List Location}

theorem resultOf_expanding (b : BuildPlan) (r : Request) (d : Disk) :
    resultOf (b.expanding r.run) d =
      (Expansion.outcome (r.run ⟨b.settings, d.source⟩) .empty).mapError .resolve := by
  have hstart : Session.start = ⟨.empty, []⟩ := rfl
  rw [resultOf, expanding, Expansion.outcome, hstart]
  cases r.run ⟨b.settings, d.source⟩ ⟨.empty, []⟩ <;> rfl

/-- Expanding leaves the tree as it is, and the cache in agreement with it. -/
theorem runInvariant_faithful (s : FileTree) :
    RunInvariant [] fun d => d.tree = s ∧ d.Faithful := by
  refine ⟨fun cache => ⟨by simp, by simp [WriteInvariant]⟩, fun d reads hreads hd => ?_⟩
  rw [Disk.tree_rememberAll]
  exact ⟨hd.1, hd.2.rememberAll hreads⟩

section Grown

variable (hclosed : s.Closed) (hnamed : s.WellNamed) (hunique : s.Unique)
  (hbuilt : b.settings.Built) (h : d.GrownFrom written s) (hfresh : d'.tree = s ∧ d'.Faithful)
include hclosed hnamed hunique hbuilt h hfresh

/-- A file that the tree has is expanded as if nothing had been written. -/
theorem resultOf_expandFile_eq {p : Path} (hp : p.isAbsolute = true) (hfile : s.isFile p = true)
    (hreads : ∀ q ∈ b.readsOf (.file p) d, ¬ Hits written s q) :
    resultOf (b.expanding (·.expandFile p)) d = resultOf (b.expanding (·.expandFile p)) d' := by
  have hresult : ∀ d, resultOf (b.expanding (·.expandFile p)) d = _ :=
    b.resultOf_expanding (.file p)
  obtain ⟨name, hname⟩ := getLast?_of_isFile hp hfile
  have hdirectory : (Request.file p).directory.isAbsolute = true :=
    Path.isAbsolute_directory (by rwa [Path.isAbsolute_normalize]) hname
  rw [hresult, hresult, h.outcome_run_eq hclosed hnamed hunique hbuilt hfresh.1
    hfresh.2 hdirectory ?_ fun entry hentry => hreads _ (List.mem_map_of_mem hentry)]
  intro q hq
  cases hq
  exact ⟨h.readsAlike hp hfile, fun _ => hfile⟩

/-- A member that the disk has is bundled as if nothing had been written. -/
theorem resultOf_bundleFile_eq {p : Path} (hp : p.isAbsolute = true)
    (hfile : d.tree.isFile p = true)
    (hreads : ∀ q ∈ b.readsOf (.bundle p) d, ¬ Hits written s q) :
    resultOf (b.expanding (·.bundleFile p)) d = resultOf (b.expanding (·.bundleFile p)) d' := by
  have hresult : ∀ d, resultOf (b.expanding (·.bundleFile p)) d = _ :=
    b.resultOf_expanding (.bundle p)
  obtain ⟨name, hname⟩ := getLast?_of_isFile hp hfile
  have hdirectory : (Request.bundle p).directory.isAbsolute = true :=
    Path.isAbsolute_directory (by rwa [Path.isAbsolute_normalize]) hname
  rw [hresult, hresult, h.outcome_run_eq hclosed hnamed hunique hbuilt hfresh.1
    hfresh.2 hdirectory ?_ fun entry hentry => hreads _ (List.mem_map_of_mem hentry)]
  intro q hq
  cases hq
  refine ⟨?_, fun hnormal => by rwa [Path.normalize_normalize] at hnormal⟩
  exact (h.read_cases hclosed (Path.canonical_normalize hp)
    (FileTree.read_normalize hfile).1).imp_left And.right

theorem resultOf_expandMembers_eq {members : List Path}
    (habs : ∀ p ∈ members, p.isAbsolute = true) (hfiles : ∀ p ∈ members, d.tree.isFile p = true)
    (hreads : ∀ q ∈ b.readsOfMembers members d, ¬ Hits written s q) :
    resultOf (b.expandMembers members) d = resultOf (b.expandMembers members) d' := by
  induction members generalizing d d' with
  | nil => rfl
  | cons p rest ih =>
    rw [List.forall_mem_cons] at habs hfiles
    rw [readsOfMembers, List.forall_mem_append] at hreads
    have hfirst := resultOf_bundleFile_eq hclosed hnamed hunique hbuilt h hfresh habs.1
      hfiles.1 hreads.1
    have hgrown : RunInvariant [] (Disk.GrownFrom written s) :=
      runInvariant_grownFrom hclosed (by simp)
    rw [expandMembers]
    refine resultOf_bind_congr hfirst fun first d₁ d₁' hrun hrun' =>
      resultOf_bind_congr ?_ fun _ _ _ _ _ => rfl
    have htree : d₁.tree = d.tree :=
      (keeps_expanding b (runInvariant_tree d.tree) (.bundle p)).of_ok rfl hrun
    exact ih ((keeps_expanding b hgrown (.bundle p)).of_ok h hrun)
      ((keeps_expanding b (runInvariant_faithful s) (.bundle p)).of_ok hfresh hrun') habs.2
      (fun q hq => htree ▸ hfiles.2 q hq) (by simpa only [hrun] using hreads.2)

end Grown

theorem resultOf_asking_const {α : Type} (answer : Except BuildError α) (d d' : Disk) :
    resultOf (asking fun _ => answer) d = resultOf (asking fun _ => answer) d' := by
  cases answer <;> rfl

end BuildPlan

/-- A unit that reads nothing from the locations expands as if nothing had been written there. -/
theorem BuildUnit.resultOf_expansion_eq {b : BuildPlan} {u : BuildUnit} {d : Disk} {s : FileTree}
    {written : List Location} (hclosed : s.Closed) (hnamed : s.WellNamed) (hunique : s.Unique)
    (hbuilt : b.settings.Built) (hstyles : b.stylesDir.isAbsolute = true)
    (h : d.GrownFrom written s)
    (hentry : ∀ p, u = .entry p → p.isAbsolute = true ∧ s.isFile p = true)
    (hreads : ∀ q ∈ u.reads b d, ¬ Hits written s q) :
    resultOf (u.expansion b) d = resultOf (u.expansionOf b d.tree) ⟨s, []⟩ := by
  have hfresh : (Disk.mk s []).tree = s ∧ (Disk.mk s []).Faithful :=
    ⟨rfl, by simp [Disk.Faithful]⟩
  rw [resultOf_expansion]
  cases u with
  | entry p =>
    obtain ⟨habs, hfile⟩ := hentry p rfl
    exact BuildPlan.resultOf_expandFile_eq hclosed hnamed hunique hbuilt h hfresh habs
      hfile hreads
  | group g =>
    refine resultOf_bind_congr (BuildPlan.resultOf_asking_const _ _ _)
      fun members d₁ d₁' hrun hrun' => ?_
    obtain ⟨hmembers, rfl⟩ := BuildPlan.exists_of_asking_ok hrun
    obtain ⟨_, rfl⟩ := BuildPlan.exists_of_asking_ok hrun'
    rw [reads, starts, hmembers] at hreads
    exact BuildPlan.resultOf_expandMembers_eq hclosed hnamed hunique hbuilt h hfresh
      (fun p hp => Discovery.isAbsolute_of_mem_members hstyles hmembers hp)
      (fun p hp => Discovery.isFile_of_mem_members hmembers hp) hreads

/-! ## Builds -/

namespace BuildPlan

variable {tree : FileTree} {env : Environment} {path : Option Path} {overrides : Option Overrides}
  {c : Config} {run : Sass.Runner} {scratch : Path} {b : BuildPlan} {units : List BuildUnit}
  {report : BuildReport} {d d' : Disk}

theorem closed_prepared (b : BuildPlan) (h : d.tree.Closed) : (b.prepared d).tree.Closed :=
  Layout.holds_after_prepare (fun _ _ => growthInvariant_closed _)
    (h.removeDirectory b.layout.root)

theorem prepared_eq (b : BuildPlan) (d : Disk) : b.prepared d = ⟨(b.prepared d).tree, []⟩ := by
  have hcache : (b.prepared d).cache = [] := b.layout.keeps_cache_prepare [] d.clearCache rfl
  rw [← hcache]

/-- Behind some units the disk has grown from the tree that the build started from. -/
theorem grownFrom_afterUnits (hnamed : d.tree.WellNamed) (hunique : d.tree.Unique)
    (hclosed : d.tree.Closed) (earlier : List BuildUnit) :
    (b.afterUnits d earlier).GrownFrom ((earlier.flatMap (BuildUnit.written b)).map fun p =>
      (b.prepared d).tree.placeOf p.components) (b.prepared d).tree := by
  refine Keeps.mapM (fun u hu => BuildUnit.keeps_attempt ?_) _ ?_
  · refine runInvariant_grownFrom (b.closed_prepared hclosed) fun p hp => ?_
    exact List.mem_map_of_mem (List.mem_flatMap.2 ⟨u, hu, hp⟩)
  · rw [prepared_eq]
    exact Disk.grownFrom_self (wellNamed_prepared b hnamed) (unique_prepared b hunique)

theorem settings_and_groups_of_ofConfig (h : ofConfig c run scratch = .ok b) :
    b.settings.Built ∧ b.groups = c.groups := by
  rw [ofConfig] at h
  split at h
  · cases h
  · rename_i hsettings
    cases h
    exact ⟨⟨c.draft, hsettings⟩, rfl⟩

/-- The entries, then the groups of the plan. -/
def unitsOf (b : BuildPlan) (entries : List Path) : List BuildUnit :=
  entries.map .entry ++ b.groups.map .group

/-- No two units of a build have the same label. -/
theorem nodup_labels (hload : Config.load tree env path overrides = .ok c)
    (hplan : ofConfig c run scratch = .ok b) {t : FileTree} {groups : List GroupPatterns}
    {entries : List Path} (h : b.discovery.entries t groups = .ok entries) :
    ((b.unitsOf entries).map (BuildUnit.label b)).Nodup := by
  obtain ⟨_, hstyles⟩ := isAbsolute_of_ofConfig hload hplan
  have habs : ∀ p ∈ entries, p.isAbsolute = true := fun p =>
    Discovery.isAbsolute_of_mem_entries hstyles h
  rw [unitsOf, List.map_append, List.map_map, List.map_map, List.nodup_append]
  refine ⟨?_, ?_, by simp [BuildUnit.label]⟩
  · rw [List.Nodup, List.pairwise_map]
    refine (Discovery.pairwise_entries h).imp_of_mem fun hp hq hpair hsame => ?_
    exact hpair.2 (Discovery.components_eq_of_relative hstyles (habs _ hp) (habs _ hq)
      (Entry.single.inj hsame))
  · have hnames := Config.nodup_groups hload
    rw [← (settings_and_groups_of_ofConfig hplan).2, List.Nodup, List.pairwise_map] at hnames
    rw [List.Nodup, List.pairwise_map]
    exact hnames.imp fun hne hsame => hne (Entry.group.inj hsame)

/-- The report names every unit once, and the manifest that was written has one record for the key
of each stylesheet in the report. -/
structure Reports (b : BuildPlan) (units : List BuildUnit) (report : BuildReport) (t : FileTree) :
    Prop where
  labels : (units.map (BuildUnit.label b)).Nodup
  accounts : report.Accounts (units.map (BuildUnit.label b))
  manifest : t.lookup b.layout.manifestPath = .ok (.file (.text (b.manifest report).text))
  sorted : Json.Sorted (b.manifest report).records
  keys : ∀ key, key ∈ (b.manifest report).keys ↔
    ∃ output ∈ report.outputs, b.layout.key output.cssPath = key
  records : ∀ entry ∈ (b.manifest report).records, ∃ output ∈ report.outputs,
    entry = (b.layout.key output.cssPath, ⟨sourceOf output.entry, output.dependencies⟩)

/-- The files of the unit expand as they do on a fresh disk with the files that the build started
from.  A group takes the members that it finds when it runs. -/
def Isolated (b : BuildPlan) (d : Disk) (earlier : List BuildUnit) (u : BuildUnit) : Prop :=
  resultOf (u.expansion b) (b.afterUnits d earlier) =
    resultOf (u.expansionOf b (b.afterUnits d earlier).tree) ⟨(b.prepared d).tree, []⟩

/-- How a unit fares that runs behind earlier ones and in front of later ones. -/
structure Fares (b : BuildPlan) (d : Disk) (report : BuildReport) (earlier : List BuildUnit)
    (u : BuildUnit) (later : List BuildUnit) : Prop where
  succeeded : ∀ output after, u.step b (b.afterUnits d earlier) = .ok output after →
    output ∈ report.outputs ∧ output.entry = u.label b ∧ output.cssPath = u.cssPath b
  failed : ∀ cause after, u.step b (b.afterUnits d earlier) = .error cause after →
    ⟨u.label b, cause⟩ ∈ report.failures ∧ u.label b ∉ report.outputs.map BuiltOutput.entry ∧
      (¬ cause.IsWrite → after.tree = (b.afterUnits d earlier).tree)
  /-- Nothing is read that another entry or an earlier group writes to. -/
  unwritten : (∀ p ∈ u.reads b (b.afterUnits d earlier),
    ∀ v ∈ earlier ++ later.filter BuildUnit.isEntry, ∀ q ∈ v.written b,
      (b.prepared d).tree.placeOf p.components ≠ (b.prepared d).tree.placeOf q.components) →
    b.Isolated d earlier u
  /-- Nothing is written outside of the output directory, and nothing in it is read. -/
  outside : '\\' ∉ b.stylesDir.text → (∀ g ∈ b.groups, g.Inward) →
    (∀ p ∈ u.reads b (b.afterUnits d earlier),
      ¬ b.layout.root.place <+: (b.prepared d).tree.placeOf p.components) →
    b.Isolated d earlier u
  /-- Beyond that, no path of a file that the unit is made of leads through the output
  directory. -/
  alone : '\\' ∉ b.stylesDir.text → (∀ g ∈ b.groups, g.Inward) →
    (∀ p ∈ u.reads b (b.afterUnits d earlier),
      ¬ b.layout.root.place <+: (b.prepared d).tree.placeOf p.components) →
    (∀ p ∈ u.starts b (b.afterUnits d earlier).tree ++ u.starts b (b.prepared d).tree,
      b.layout.root.KeepsClear p) →
    resultOf (u.expansion b) (b.afterUnits d earlier) =
      resultOf (u.expansion b) ⟨(b.prepared d).tree, []⟩

theorem reports_of_build (hload : Config.load tree env path overrides = .ok c)
    (hplan : ofConfig c run scratch = .ok b) {groups : List GroupPatterns} {entries : List Path}
    (hentries : b.discovery.entries (b.prepared d).tree groups = .ok entries)
    (hunits : b.discover (b.prepared d).tree = .ok (b.unitsOf entries))
    (hbuild : b.build d = .ok report d') : b.Reports (b.unitsOf entries) report d'.tree where
  labels := nodup_labels hload hplan hentries
  accounts := accounts_of_build hunits hbuild
  manifest := by
    obtain ⟨_, _, _, _, _, _, hmanifest⟩ := exists_of_build hbuild
    exact Layout.lookup_writeFile hmanifest
  sorted := sorted_manifest b report
  keys _ := mem_keys_manifest
  records _ := exists_of_mem_manifest

/-- Units whose names do not climb write nothing that is not in the output directory. -/
theorem placeOf_ne_of_outside (hroot : b.layout.root.isAbsolute = true)
    (hstyles : b.stylesDir.isAbsolute = true) {v : BuildUnit} (hv : v.Inward b) {t : FileTree}
    {p q : Path} (hp : ¬ b.layout.root.place <+: t.placeOf p.components) (hq : q ∈ v.written b) :
    t.placeOf p.components ≠ t.placeOf q.components := by
  have hin := hv.staysIn hroot hstyles hq
  intro hsame
  rw [hsame, Path.placeOf_eq_place t (hin.isAbsolute hroot)] at hp
  exact hp hin.prefix_place

/-- A label that is reported as a failure is not reported as an output. -/
theorem notMem_outputs_of_mem_failures {labels : List Entry} (hlabels : labels.Nodup)
    (h : report.Accounts labels) {failure : EntryFailure} (hfailure : failure ∈ report.failures) :
    failure.entry ∉ report.outputs.map BuiltOutput.entry := by
  have hnodup := h.once.nodup_iff.2 hlabels
  intro hmem
  exact (List.nodup_append.1 hnodup).2.2 _ hmem _ (List.mem_map_of_mem hfailure) rfl

theorem isolated_of_unwritten (hload : Config.load tree env path overrides = .ok c)
    (hplan : ofConfig c run scratch = .ok b) (hnamed : d.tree.WellNamed) (hunique : d.tree.Unique)
    (hclosed : d.tree.Closed) {earlier later : List BuildUnit} {u : BuildUnit}
    (hunits : b.discover (b.prepared d).tree = .ok (earlier ++ u :: later))
    (hreads : ∀ p ∈ u.reads b (b.afterUnits d earlier), ∀ v ∈ earlier, ∀ q ∈ v.written b,
      (b.prepared d).tree.placeOf p.components ≠ (b.prepared d).tree.placeOf q.components) :
    b.Isolated d earlier u := by
  obtain ⟨_, hstyles⟩ := isAbsolute_of_ofConfig hload hplan
  refine BuildUnit.resultOf_expansion_eq (b.closed_prepared hclosed) (wellNamed_prepared b hnamed)
    (unique_prepared b hunique) (settings_and_groups_of_ofConfig hplan).1 hstyles
    (grownFrom_afterUnits hnamed hunique hclosed earlier) (fun p hp => ?_) fun p hp hhits => ?_
  · subst hp
    rcases cases_of_mem_discover hunits (u := .entry p) (by simp) with
      ⟨q, groups, entries, hentries, hq, hsame⟩ | ⟨g, _, hsame⟩
    · cases hsame
      exact ⟨Discovery.isAbsolute_of_mem_entries hstyles hentries hq,
        Discovery.isFile_of_mem_entries hentries hq⟩
    · cases hsame
  · obtain ⟨q, hq, hsame⟩ := List.mem_map.1 hhits
    obtain ⟨v, hv, hq⟩ := List.mem_flatMap.1 hq
    exact hreads p hp v hv q hq hsame.symm

theorem isolated_of_outside (hload : Config.load tree env path overrides = .ok c)
    (hplan : ofConfig c run scratch = .ok b) (hnamed : d.tree.WellNamed) (hunique : d.tree.Unique)
    (hclosed : d.tree.Closed) {earlier later : List BuildUnit} {u : BuildUnit}
    (hunits : b.discover (b.prepared d).tree = .ok (earlier ++ u :: later))
    (hback : '\\' ∉ b.stylesDir.text) (hgroups : ∀ g ∈ b.groups, g.Inward)
    (hreads : ∀ p ∈ u.reads b (b.afterUnits d earlier),
      ¬ b.layout.root.place <+: (b.prepared d).tree.placeOf p.components) :
    b.Isolated d earlier u := by
  obtain ⟨hroot, hstyles⟩ := isAbsolute_of_ofConfig hload hplan
  have hinward := inward_of_discover (wellNamed_prepared b hnamed) hstyles hback hgroups hunits
  refine isolated_of_unwritten hload hplan hnamed hunique hclosed hunits fun p hp v hv q hq => ?_
  exact placeOf_ne_of_outside hroot hstyles (hinward v (by simp [hv])) (hreads p hp) hq

/-- Behind some units that write inside the output directory alone, the files outside of it are
the same. -/
theorem alike_afterUnits (hroot : b.layout.root.isAbsolute = true)
    (hstyles : b.stylesDir.isAbsolute = true) (hnamed : d.tree.WellNamed)
    (hunique : d.tree.Unique) (hway : HasWay b.layout.root (b.prepared d).tree)
    {earlier : List BuildUnit} (hinward : ∀ v ∈ earlier, v.Inward b) :
    Alike b.layout.root [] (b.prepared d).tree (b.afterUnits d earlier).tree := by
  have hstart := trueTo_prepared hnamed hunique
    (SameOutside.refl b.layout.root (b.prepared d).tree)
  have htrue : (b.afterUnits d earlier).TrueTo b.layout.root (b.prepared d).tree := by
    refine Keeps.mapM (fun v hv => BuildUnit.keeps_attempt ?_) _ hstart
    exact runInvariant_trueTo hroot (fun p hp => (hinward v hv).staysIn hroot hstyles hp) hway
  exact htrue.tree.alike hway

/-- A build that succeeds accounts for all of its units: the entries in the order of their paths,
then the groups as they are declared.  A unit that fails before it comes to write leaves the files
as they are, and has no record in the manifest.  The files of a unit expand as they do alone, if
it reads nothing that another entry or an earlier group writes to.  When nothing is written
outside of the output directory, it is enough that the unit reads nothing from there, and it also
finds its files as it does alone, if their paths keep clear of it. -/
theorem build_accounts_for_units (hload : Config.load tree env path overrides = .ok c)
    (hplan : ofConfig c run scratch = .ok b) (hnamed : d.tree.WellNamed) (hunique : d.tree.Unique)
    (hclosed : d.tree.Closed) (hbuild : b.build d = .ok report d') :
    ∃ entries, b.discover (b.prepared d).tree = .ok (b.unitsOf entries) ∧
      entries.Pairwise (fun p q => p.le q = true ∧ p.components ≠ q.components) ∧
      b.Reports (b.unitsOf entries) report d'.tree ∧
      ∀ earlier u later, b.unitsOf entries = earlier ++ u :: later →
        b.Fares d report earlier u later := by
  obtain ⟨hroot, hstyles⟩ := isAbsolute_of_ofConfig hload hplan
  obtain ⟨units, _, _, hunits, _⟩ := exists_of_build hbuild
  obtain ⟨groups, _, hdiscover⟩ := bind_eq_ok_iff.1 hunits
  obtain ⟨entries, hentries, hdiscover⟩ := bind_eq_ok_iff.1 hdiscover
  obtain rfl : b.unitsOf entries = units := Except.ok.inj hdiscover
  have hreports := reports_of_build hload hplan hentries hunits hbuild
  refine ⟨entries, hunits, Discovery.pairwise_entries hentries, hreports, ?_⟩
  intro earlier u later hsplit
  rw [hsplit] at hunits
  obtain ⟨houtputs, hfailures⟩ := mem_report_of_build hunits hbuild
  refine ⟨fun output after hstep => ?_, fun cause after hstep => ?_, fun hreads => ?_, ?_,
    fun hback hgroups hreads hclear => ?_⟩
  · exact ⟨houtputs output (resultOf_of_ok hstep), BuildUnit.entry_of_step hstep⟩
  · have hfailure := hfailures cause (resultOf_of_error hstep)
    exact ⟨hfailure, notMem_outputs_of_mem_failures hreports.labels hreports.accounts hfailure,
      BuildUnit.tree_of_step_error hstep⟩
  · refine isolated_of_unwritten hload hplan hnamed hunique hclosed hunits fun p hp v hv => ?_
    exact hreads p hp v (List.mem_append_left _ hv)
  · exact isolated_of_outside hload hplan hnamed hunique hclosed hunits
  · have hnamed' := wellNamed_prepared b hnamed
    have hinward := inward_of_discover hnamed' hstyles hback hgroups hunits
    have hway := (trueTo_of_build hroot hstyles hback hgroups hnamed hunique hbuild).1
    have halike := alike_afterUnits hroot hstyles hnamed hunique hway fun v hv =>
      hinward v (List.mem_append_left _ hv)
    have hfound := BuildUnit.expansionOf_eq_of_alike halike.symm
      (grownFrom_afterUnits hnamed hunique hclosed earlier).named hnamed' hstyles hclear
    rw [isolated_of_outside hload hplan hnamed hunique hclosed hunits hback hgroups hreads,
      hfound, BuildUnit.resultOf_expansion]

/-! ### Groups beside each other -/

/-- A configuration with the given lines for its groups. -/
def peerText (lines : Text) : Text :=
  ("[project]\noutput_dir = \"o\"\nstyles_dir = \"s\"\n[compiler]\nbackend = \"passthrough\"\n" ++
    "[entry_groups]\n").toList ++ lines

/-- A directory of stylesheets, and the given files. -/
def peerTree (lines : Text) (files : List (Location × Node)) : FileTree where
  entries := [(["r".toList], .directory),
    (["r".toList, Config.fileName], .file (.text (peerText lines))),
    (["r".toList, "s".toList], .directory)] ++ files
  workingDirectory := ["r".toList]

/-- What the configuration is read as, without its groups. -/
def peerConfig : Config :=
  { twinConfig with project := ⟨⟨"/r".toList⟩, ⟨"/r/s".toList⟩, ⟨"/r/o".toList⟩⟩ }

/-- The plan of the project with the given groups. -/
def peerPlan (groups : List EntryGroup) : BuildPlan :=
  { (ofConfig peerConfig strayRunner ⟨"/t".toList⟩).toOption.get rfl with groups := groups }

/-- The directories when the output directory is ready. -/
def peerReady : List (Location × Node) :=
  [(["r".toList, "o".toList], .directory),
    (["r".toList, "o".toList, "single".toList], .directory),
    (["r".toList, "o".toList, "group".toList], .directory)]

/-- The stylesheet that the second group is made of. -/
def peerSheet (text : Text) : Location × Node :=
  (["r".toList, "s".toList, "x.css".toList], .file (.text text))

/-- The path of the stylesheet that the second group is made of. -/
def peerMember : Path := ⟨"/r/s/x.css".toList⟩

/-- A stylesheet that requires a file that is not there. -/
def peerBroken : Location × Node :=
  (["r".toList, "z.css".toList], .file (.text "//= require 'q'\n".toList))

/-- A group with no members. -/
def peerFirst : EntryGroup := ⟨"w".toList, []⟩

/-- A group with one member. -/
def peerSecond : EntryGroup := ⟨"y".toList, ["x.css".toList]⟩

/-- A group that fails. -/
def peerThird : EntryGroup := ⟨"z".toList, ["../z.css".toList]⟩

/-- The groups of a project in which only the last one fails. -/
def peerGroups : List EntryGroup := [peerFirst, peerSecond, peerThird]

/-- These groups as they are declared. -/
def peerLines : Text := "w = []\ny = [\"x.css\"]\nz = [\"../z.css\"]\n".toList

/-- A group whose name leads to the stylesheet of the second one. -/
def peerClimber : EntryGroup := ⟨"../../s/x".toList, []⟩

/-- The group whose name climbs and the second one, as they are declared. -/
def peerClimbing : Text := "\"../../s/x\" = []\ny = [\"x.css\"]\n".toList

private theorem peer_load {lines : Text} {files : List (Location × Node)}
    {groups : List EntryGroup}
    (h : (lines, files, groups) = (peerLines, [peerSheet ".x".toList, peerBroken], peerGroups) ∨
      (lines, files, groups) =
        (peerClimbing, [peerSheet ".x".toList], [peerClimber, peerSecond])) :
    ∃ c, Config.load (peerTree lines files) ⟨[], none⟩ none none = .ok c ∧
      ofConfig c strayRunner ⟨"/t".toList⟩ = .ok (peerPlan groups) := by
  apply exists_of_sections { peerConfig with groups := groups }
  · rfl
  · rcases h with h | h <;> cases h <;> decide +kernel

-- Ordering does not compute, so a run is taken apart where members are put in order.

/-- Nothing or one path is in order. -/
private theorem members_of_found {finder : Discovery} {t : FileTree} {patterns : List Text}
    {members : List Path} (hlength : members.length ≤ 1)
    (h : (finder.findAll t patterns).toOption.any
      (fun found => decide (found.filter (finder.isCandidate t) = members)) = true) :
    finder.members t patterns = .ok members := by
  obtain ⟨found, hfound, hfilter⟩ := exists_ok_of_any h
  rw [Discovery.members, hfound]
  change Except.ok (Discovery.ordered _) = _
  rw [of_decide_eq_true hfilter]
  cases members with
  | nil => rw [Discovery.ordered_nil]
  | cons p rest =>
    obtain rfl : rest = [] := List.eq_nil_of_length_eq_zero (by simpa using hlength)
    rw [Discovery.ordered_singleton]

private theorem attempt_group {g : EntryGroup} (members : List Path)
    {outcome : Except EntryFailure BuiltOutput}
    (hmembers : b.discovery.members d.tree g.patterns = .ok members)
    (hrun : attempt (.group g.name) (do
      let expanded ← b.expandMembers members
      b.compileAndWrite (.group g.name) expanded (b.stylesDir.push (groupFile g)) ⟨groupFile g⟩
        (b.layout.groupPath g.name)) d = .ok outcome d') :
    BuildUnit.attempt b (.group g) d = .ok outcome d' := by
  have hask : asking (fun tree => b.discovery.members tree g.patterns) d = .ok members d := by
    rw [asking, hmembers]
  rw [BuildUnit.attempt, attempt, BuildUnit.step, buildGroup, bind_of_ok hask]
  exact hrun

/-- A build of groups alone. -/
private theorem build_of_groups {outcomes : List (Except EntryFailure BuiltOutput)} {d₀ d₁ : Disk}
    (hprepare : b.layout.prepare d.clearCache = .ok () d₀)
    (hpatterns : b.groupPatterns.toOption.isSome = true)
    (hentries : (b.discovery.findAll d₀.tree Discovery.entryPatterns).toOption = some [])
    (hrun : (b.groups.map .group).mapM (BuildUnit.attempt b) d₀ = .ok outcomes d₁)
    (hmanifest : Succeeds (fun _ => True)
      (b.layout.writeManifest (b.manifest (outcomes.foldl BuildReport.record .empty)) d₁)) :
    (∃ d', b.build d = .ok (outcomes.foldl BuildReport.record .empty) d') ∧
      b.discover d₀.tree = .ok (b.groups.map .group) := by
  obtain ⟨_, d', hmanifest, _⟩ := exists_of_succeeds hmanifest
  cases hgroups : b.groupPatterns with
  | error cause =>
    rw [hgroups] at hpatterns
    cases hpatterns
  | ok groups =>
    have hnone : b.discovery.entries d₀.tree groups = .ok [] := by
      cases hfound : b.discovery.findAll d₀.tree Discovery.entryPatterns with
      | error cause =>
        rw [hfound] at hentries
        cases hentries
      | ok found =>
        rw [hfound] at hentries
        obtain rfl : found = [] := Option.some.inj hentries
        rw [Discovery.entries, hfound]
        exact congrArg Except.ok Discovery.ordered_nil
    have hclear : clearCache d = .ok () d.clearCache := rfl
    have hask : asking (fun _ => b.groupPatterns) d₀ = .ok groups d₀ := by rw [asking, hgroups]
    have hask' : asking (fun tree => b.discovery.entries tree groups) d₀ = .ok [] d₀ := by
      rw [asking, hnone]
    have hbundles : b.groups.mapM
        (fun group => attempt (.group group.name) (b.buildGroup group)) d₀ = .ok outcomes d₁ := by
      rw [List.mapM_map] at hrun
      exact hrun
    constructor
    · refine ⟨d', ?_⟩
      rw [build, bind_of_ok hclear, bind_of_ok hprepare, bind_of_ok hask, bind_of_ok hask',
        List.mapM_nil, pure_bind, bind_of_ok hbundles]
      exact bind_of_ok hmanifest
    · exact bind_eq_ok_iff.2 ⟨groups, hgroups, bind_eq_ok_iff.2 ⟨[], hnone, rfl⟩⟩

/-- The file of a group. -/
def peerWritten (name text : Text) : Location × Node :=
  (["r".toList, "o".toList, "group".toList, name ++ ".css".toList], .file (.text text))

/-- What is reported of a group that succeeds. -/
def peerOutput (name cssPath : Text) (dependencies : List Text) : BuiltOutput where
  entry := .group name
  cssPath := ⟨"/r/o/group/".toList ++ cssPath⟩
  mapPath := none
  dependencies := dependencies

/-- The stylesheet between its boundaries. -/
def peerCss (text : Text) : Text :=
  (Boundary.ofPath peerMember).wrap text

/-- The disk before the groups beside each other are built. -/
def peerStart : Disk := ⟨peerTree peerLines [peerSheet ".x".toList, peerBroken], []⟩

/-- The disk while they are built. -/
def peerDisk (written : List (Location × Node)) (cache : List (Path × Text)) : Disk :=
  ⟨peerTree peerLines ([peerSheet ".x".toList, peerBroken] ++ peerReady ++ written), cache⟩

/-- What the groups beside each other write. -/
def peerFiles : List (Location × Node) :=
  [peerWritten "w".toList [], peerWritten "y".toList (peerCss ".x".toList)]

/-- How the three groups come out. -/
def peerOutcomes : List (Except EntryFailure BuiltOutput) :=
  [.ok (peerOutput "w".toList "w.css".toList []),
    .ok (peerOutput "y".toList "y.css".toList [peerMember.text]),
    .error ⟨.group "z".toList, .resolve (.fileNotFound "q".toList)⟩]

private theorem peer_first :
    BuildUnit.attempt (peerPlan peerGroups) (.group peerFirst) (peerDisk [] []) =
      .ok (.ok (peerOutput "w".toList "w.css".toList []))
        (peerDisk [peerWritten "w".toList []] []) := by
  apply attempt_group []
  · exact members_of_found (by decide) rfl
  · rfl

private theorem peer_members {written : List (Location × Node)}
    (h : written = [] ∨ written = [peerWritten "w".toList []]) :
    (peerPlan peerGroups).discovery.members (peerDisk written []).tree peerSecond.patterns =
      .ok [peerMember] := by
  apply members_of_found
  · decide
  · rcases h with rfl | rfl <;> rfl

private theorem peer_second :
    BuildUnit.attempt (peerPlan peerGroups) (.group peerSecond)
      (peerDisk [peerWritten "w".toList []] []) =
      .ok (.ok (peerOutput "y".toList "y.css".toList [peerMember.text]))
        (peerDisk peerFiles [(peerMember, ".x".toList)]) := by
  apply attempt_group [peerMember] (peer_members (.inr rfl))
  decide +kernel

private theorem peer_third :
    BuildUnit.attempt (peerPlan peerGroups) (.group peerThird)
        (peerDisk peerFiles [(peerMember, ".x".toList)]) =
      .ok (.error ⟨.group "z".toList, .resolve (.fileNotFound "q".toList)⟩)
        (peerDisk peerFiles
          [(peerMember, ".x".toList), (⟨"/r/z.css".toList⟩, "//= require 'q'\n".toList)]) := by
  apply attempt_group [⟨"/r/s/../z.css".toList⟩]
  · exact members_of_found (by decide) rfl
  · rfl

private theorem peer_build :
    ∃ d', (peerPlan peerGroups).prepared peerStart = peerDisk [] [] ∧
      (peerPlan peerGroups).build peerStart =
        .ok (peerOutcomes.foldl BuildReport.record .empty) d' ∧
      (peerPlan peerGroups).discover (peerDisk [] []).tree = .ok (peerGroups.map .group) := by
  have hprepare : (peerPlan peerGroups).layout.prepare peerStart = .ok () (peerDisk [] []) := by
    rfl
  have hrun : (peerGroups.map BuildUnit.group).mapM (BuildUnit.attempt (peerPlan peerGroups))
      (peerDisk [] []) = .ok peerOutcomes _ :=
    mapM_cons_of_ok peer_first (mapM_cons_of_ok peer_second (mapM_cons_of_ok peer_third rfl))
  obtain ⟨⟨d', hbuild⟩, hdiscover⟩ := build_of_groups (d := peerStart) hprepare rfl
    (by decide +kernel) hrun (by decide +kernel)
  exact ⟨d', stateAfter_of_ok hprepare, hbuild, hdiscover⟩

/-- The second of three groups is expanded as it is alone, while the first one is written and the
third one fails. -/
theorem peer_apart :
    ∃ c report d', Config.load peerStart.tree ⟨[], none⟩ none none = .ok c ∧
      ofConfig c strayRunner ⟨"/t".toList⟩ = .ok (peerPlan peerGroups) ∧
      (peerPlan peerGroups).build peerStart = .ok report d' ∧
      report.outputs.map BuiltOutput.entry = [.group "w".toList, .group "y".toList] ∧
      report.failures.map EntryFailure.entry = [.group "z".toList] ∧
      (peerPlan peerGroups).Reports (peerGroups.map .group) report d'.tree ∧
      resultOf ((BuildUnit.group peerSecond).expansion (peerPlan peerGroups))
          ((peerPlan peerGroups).afterUnits peerStart [.group peerFirst]) =
        resultOf ((BuildUnit.group peerSecond).expansion (peerPlan peerGroups))
          (peerDisk [] []) := by
  obtain ⟨c, hload, hplan⟩ := peer_load (.inl rfl)
  obtain ⟨d', hprepared, hbuild, hdiscover⟩ := peer_build
  obtain ⟨entries, hunits, _, hreports, hfares⟩ := build_accounts_for_units hload hplan
    ⟨by decide, by decide⟩ (by decide) (by decide) hbuild
  rw [hprepared, hdiscover] at hunits
  rw [← Except.ok.inj hunits] at hreports hfares
  refine ⟨c, _, d', hload, hplan, hbuild, rfl, rfl, hreports, ?_⟩
  have hafter : (peerPlan peerGroups).afterUnits peerStart [.group peerFirst] =
      peerDisk [peerWritten "w".toList []] [] := by
    rw [afterUnits, hprepared]
    exact stateAfter_of_ok (mapM_cons_of_ok peer_first rfl)
  have halone :=
    (hfares [.group peerFirst] (.group peerSecond) [.group peerThird] rfl).alone (by decide)
    (by decide)
  rw [hafter, hprepared, BuildUnit.reads_group (peer_members (.inr rfl)),
    BuildUnit.starts_group (peer_members (.inr rfl)),
    BuildUnit.starts_group (peer_members (.inl rfl))] at halone
  rw [hafter]
  exact halone (by decide +kernel) (by decide +kernel)

/-- The plan with the group that climbs. -/
def climbPlan : BuildPlan := peerPlan [peerClimber, peerSecond]

/-- The disk before the group that climbs and the second one are built. -/
def climbStart : Disk := ⟨peerTree peerClimbing [peerSheet ".x".toList], []⟩

/-- The disk while they are built. -/
def climbDisk (files : List (Location × Node)) (cache : List (Path × Text)) : Disk :=
  ⟨peerTree peerClimbing files, cache⟩

private theorem climb_first :
    BuildUnit.attempt climbPlan (.group peerClimber)
        (climbDisk (peerSheet ".x".toList :: peerReady) []) =
      .ok (.ok (peerOutput peerClimber.name "../../s/x.css".toList []))
        (climbDisk (peerReady ++ [peerSheet []]) []) := by
  apply attempt_group []
  · exact members_of_found (by decide) rfl
  · rfl

private theorem climb_members : climbPlan.discovery.members
    (climbDisk (peerReady ++ [peerSheet []]) []).tree peerSecond.patterns = .ok [peerMember] :=
  members_of_found (by decide) rfl

private theorem climb_second :
    BuildUnit.attempt climbPlan (.group peerSecond) (climbDisk (peerReady ++ [peerSheet []]) []) =
      .ok (.ok (peerOutput "y".toList "y.css".toList [peerMember.text]))
        (climbDisk (peerReady ++ [peerSheet [], peerWritten "y".toList (peerCss [])])
          [(peerMember, [])]) := by
  apply attempt_group [peerMember] climb_members
  decide +kernel

/-- A group whose name leads to the stylesheet of another group empties it.  No group reads
anything in the output directory, and still the other one does not expand as it does alone. -/
theorem peer_disturbed :
    ∃ c report d', Config.load climbStart.tree ⟨[], none⟩ none none = .ok c ∧
      ofConfig c strayRunner ⟨"/t".toList⟩ = .ok climbPlan ∧
      climbPlan.build climbStart = .ok report d' ∧ report.failures = [] ∧
      climbPlan.layout.root = ⟨"/r/o".toList⟩ ∧
      (BuildUnit.group peerClimber).reads climbPlan (climbPlan.afterUnits climbStart []) = [] ∧
      (BuildUnit.group peerSecond).reads climbPlan
        (climbPlan.afterUnits climbStart [.group peerClimber]) = [⟨"/r/s/x.css".toList⟩] ∧
      ¬ climbPlan.Isolated climbStart [.group peerClimber] (.group peerSecond) := by
  obtain ⟨c, hload, hplan⟩ := peer_load (.inr rfl)
  have hprepare : climbPlan.layout.prepare climbStart =
      .ok () (climbDisk (peerSheet ".x".toList :: peerReady) []) := by
    rfl
  have hprepared : climbPlan.prepared climbStart = _ := stateAfter_of_ok hprepare
  have hrun : ([peerClimber, peerSecond].map BuildUnit.group).mapM (BuildUnit.attempt climbPlan)
      (climbDisk (peerSheet ".x".toList :: peerReady) []) =
        .ok [.ok (peerOutput peerClimber.name "../../s/x.css".toList []),
          .ok (peerOutput "y".toList "y.css".toList [peerMember.text])] _ :=
    mapM_cons_of_ok climb_first (mapM_cons_of_ok climb_second rfl)
  obtain ⟨⟨d', hbuild⟩, _⟩ := build_of_groups (d := climbStart) hprepare rfl
    (by decide +kernel) hrun (by decide +kernel)
  have hafter : climbPlan.afterUnits climbStart [.group peerClimber] =
      climbDisk (peerReady ++ [peerSheet []]) [] := by
    rw [afterUnits, hprepared]
    exact stateAfter_of_ok (mapM_cons_of_ok climb_first rfl)
  refine ⟨c, _, d', hload, hplan, hbuild, rfl, rfl, ?_, ?_, ?_⟩
  · have hbefore : climbPlan.afterUnits climbStart [] = _ := hprepared
    have hmembers : climbPlan.discovery.members
        (climbDisk (peerSheet ".x".toList :: peerReady) []).tree peerClimber.patterns = .ok [] :=
      members_of_found (by decide) rfl
    rw [hbefore, BuildUnit.reads_group hmembers]
    rfl
  · rw [hafter, BuildUnit.reads_group climb_members]
    rfl
  · rw [Isolated, hafter, hprepared, BuildUnit.resultOf_expansion,
      BuildUnit.resultOf_expansionOf_group climb_members,
      BuildUnit.resultOf_expansionOf_group climb_members]
    decide +kernel

end BuildPlan

end StyleBundle

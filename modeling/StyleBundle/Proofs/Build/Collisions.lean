import StyleBundle.Proofs.Build.Manifest

/-!
# Units that write to one file

Units of a build keep their files apart unless two of them clash in the sense of
`BuildUnit.Clash`.  Then no unit changes what another one has written, and every stylesheet has a
record in the manifest.
-/

namespace StyleBundle

open FileTree

namespace BuildUnit

variable {b : BuildPlan} {u v : BuildUnit} {s s' : Spot} {p q : Path}

theorem LiesAt.exists_names (h : u.LiesAt b s) (hp : p ∈ u.written b) :
    ∃ names ∈ s.written b.preserveIntermediate,
      p.components = b.layout.root.components ++ names.map .normal := by
  have hmem := List.mem_map_of_mem (f := Path.components) hp
  rw [h.components_written, List.mem_map] at hmem
  obtain ⟨names, hnames, hcomponents⟩ := hmem
  exact ⟨names, hnames, hcomponents.symm⟩

/-- Files of units that are apart lie at different locations. -/
theorem Apart.elsewhere (h : Apart b u v) (hu : u.LiesAt b s) (hv : v.LiesAt b s')
    (hp : p ∈ u.written b) (hq : q ∈ v.written b) : Elsewhere p q := by
  obtain ⟨names, _, hnames⟩ := hu.exists_names hp
  obtain ⟨names', _, hnames'⟩ := hv.exists_names hq
  refine elsewhere_of_names hnames hnames' fun hsame => h p hp q hq ?_
  exact (Path.normalize_eq_iff_of_names hnames hnames').2 hsame

/-- No unit writes the manifest. -/
theorem LiesAt.elsewhere_manifest (h : u.LiesAt b s) (hp : p ∈ u.written b) :
    Elsewhere p b.layout.manifestPath := by
  obtain ⟨names, hnames, hcomponents⟩ := h.exists_names hp
  have hname : Component.IsName "manifest.json".toList := by decide
  have hmanifest : b.layout.manifestPath.components =
      b.layout.root.components ++ ["manifest.json".toList].map .normal :=
    Path.components_push_name b.layout.root hname
  refine elsewhere_of_names hcomponents hmanifest ?_
  rw [Spot.mem_written] at hnames
  rcases hnames with rfl | rfl | ⟨_, rfl⟩
  · simp [Spot.css]
  · simp [Spot.map]
  · simp [Spot.intermediate]

end BuildUnit

namespace BuildPlan

variable {tree : FileTree} {env : Environment} {path : Option Path} {overrides : Option Overrides}
  {c : Config} {run : Sass.Runner} {scratch : Path} {b : BuildPlan} {units : List BuildUnit}
  {d d' : Disk} {report : BuildReport}

theorem isAbsolute_of_ofConfig (hload : Config.load tree env path overrides = .ok c)
    (hplan : ofConfig c run scratch = .ok b) :
    b.layout.root.isAbsolute = true ∧ b.stylesDir.isAbsolute = true := by
  obtain ⟨hroot, hlayout⟩ := of_ofConfig hplan
  have hstyles : b.stylesDir = c.project.stylesDir := by
    rw [ofConfig] at hplan
    split at hplan
    · cases hplan
    · cases hplan
      rfl
  rw [hlayout, hstyles]
  exact ⟨Config.isAbsolute_outputDir hload hroot, Config.isAbsolute_stylesDir hload hroot⟩

theorem wellNamed_prepared (b : BuildPlan) (h : d.tree.WellNamed) :
    (b.prepared d).tree.WellNamed :=
  Layout.holds_after_prepare (fun _ _ => growthInvariant_wellNamed _)
    (wellNamed_removeDirectory h b.layout.root)

theorem placed_of_discover (hnamed : tree.WellNamed) (hstyles : b.stylesDir.isAbsolute = true)
    (hback : '\\' ∉ b.stylesDir.text) (hgroups : ∀ g ∈ b.groups, '/' ∉ g.name)
    (h : b.discover tree = .ok units) : ∀ u ∈ units, u.Placed b := by
  intro u hu
  rcases cases_of_mem_discover h hu with ⟨p, groups, entries, hentries, hp, rfl⟩ | ⟨g, hg, rfl⟩
  · exact Discovery.exists_entryAt hnamed hstyles hback hentries hp
  · exact hgroups g hg

theorem distinct_of_discover (h : b.discover tree = .ok units) :
    units.Pairwise BuildUnit.Distinct := by
  obtain ⟨patterns, _, h⟩ := bind_eq_ok_iff.1 h
  obtain ⟨entries, hentries, h⟩ := bind_eq_ok_iff.1 h
  cases h
  rw [List.pairwise_append, List.pairwise_map, List.pairwise_map]
  refine ⟨(Discovery.pairwise_entries hentries).imp And.right, ?_, ?_⟩
  · exact List.pairwise_of_forall fun _ _ => trivial
  · intro u hu v hv
    obtain ⟨g, _, rfl⟩ := List.mem_map.1 hv
    cases u <;> trivial

/-- What a unit has written is still there when the units behind it have run. -/
theorem lookup_of_run {u : BuildUnit} {back : List BuildUnit}
    {outcomes : List (Except EntryFailure BuiltOutput)} {p : Path} {node : Node}
    (hlies : ∀ v ∈ u :: back, ∃ s, v.LiesAt b s) (hapart : ∀ v ∈ back, BuildUnit.Apart b u v)
    (hrun : back.mapM (BuildUnit.attempt b) d = .ok outcomes d') (hp : p ∈ u.written b)
    (h : d.tree.lookup p = .ok node) : d'.tree.lookup p = .ok node := by
  obtain ⟨s, hs⟩ := hlies u List.mem_cons_self
  have hkeeps : Keeps (fun d : Disk => d.tree.lookup p = .ok node)
      (back.mapM (BuildUnit.attempt b)) := by
    apply Keeps.mapM
    intro v hv
    obtain ⟨s', hs'⟩ := hlies v (List.mem_cons_of_mem _ hv)
    have hP : UpdateInvariant (v.written b) fun t => t.lookup p = .ok node :=
      updateInvariant_lookup fun q hq => (hapart v hv).elsewhere hs hs' hp hq
    exact BuildUnit.keeps_attempt hP.run
  exact hkeeps.of_ok h hrun

theorem pairwise_apart_iff (hroot : b.layout.root.isAbsolute = true)
    (hstyles : b.stylesDir.isAbsolute = true) (hplaced : ∀ u ∈ units, u.Placed b)
    (hdistinct : units.Pairwise BuildUnit.Distinct) :
    units.Pairwise (BuildUnit.Apart b) ↔ units.Pairwise fun u v => ¬ BuildUnit.Clash b u v := by
  have hiff : ∀ u ∈ units, ∀ v ∈ units, u.Distinct v →
      (BuildUnit.Apart b u v ↔ ¬ BuildUnit.Clash b u v) := fun u hu v hv hne =>
    BuildUnit.apart_iff_not_clash hroot hstyles (hplaced u hu) (hplaced v hv) hne
  constructor
  · intro h
    exact (hdistinct.and h).imp_of_mem fun hu hv hboth => (hiff _ hu _ hv hboth.1).1 hboth.2
  · intro h
    exact (hdistinct.and h).imp_of_mem fun hu hv hboth => (hiff _ hu _ hv hboth.1).2 hboth.2

/-- What a unit of a build has written is there at the end of the build. -/
theorem lookup_of_build {u : BuildUnit} {front back : List BuildUnit} {after d₁ : Disk}
    {rest : List (Except EntryFailure BuiltOutput)} {m : Manifest} {p : Path} {node : Node}
    (hlies : ∀ v ∈ front ++ u :: back, ∃ s, v.LiesAt b s)
    (hapart : (front ++ u :: back).Pairwise (BuildUnit.Apart b))
    (hrun : back.mapM (BuildUnit.attempt b) after = .ok rest d₁)
    (hmanifest : b.layout.writeManifest m d₁ = .ok () d') (hp : p ∈ u.written b)
    (h : after.tree.lookup p = .ok node) : d'.tree.lookup p = .ok node := by
  have hback := (List.pairwise_cons.1 (List.pairwise_append.1 hapart).2.1).1
  have hlies' : ∀ v ∈ u :: back, ∃ s, v.LiesAt b s := fun v hv =>
    hlies v (List.mem_append_right _ hv)
  obtain ⟨s, hs⟩ := hlies' u List.mem_cons_self
  have hP : UpdateInvariant [b.layout.manifestPath] fun t => t.lookup p = .ok node := by
    apply updateInvariant_lookup
    intro q hq
    rw [List.mem_singleton.1 hq]
    exact hs.elsewhere_manifest hp
  have hthere := lookup_of_run hlies' hback hrun hp h
  exact (Layout.keeps_writeFile hP.run (by simp) m.text).of_ok hthere hmanifest

theorem size_manifest {outcomes : List (Except EntryFailure BuiltOutput)}
    (hroot : b.layout.root.isAbsolute = true) (hlies : ∀ u ∈ units, ∃ s, u.LiesAt b s)
    (hapart : units.Pairwise (BuildUnit.Apart b))
    (hsource : ∀ u ∈ units, '\\' ∉ (u.source b).text)
    (hrun : units.mapM (BuildUnit.attempt b) d = .ok outcomes d')
    (houtputs : report.outputs = outcomes.filterMap Except.toOption) :
    (b.manifest report).size = report.outputs.length := by
  have hkeys : (units.map (BuildUnit.cssPath b)).Pairwise fun p q =>
      b.layout.key p ≠ b.layout.key q := by
    rw [List.pairwise_map]
    refine hapart.imp_of_mem fun hu hv h => ?_
    obtain ⟨s, hs⟩ := hlies _ hu
    obtain ⟨s', hs'⟩ := hlies _ hv
    exact h.key_ne hroot hs hs' (hsource _ hu) (hsource _ hv)
  have hwritten := hkeys.sublist (outputs_sublist hlies hrun)
  rw [List.pairwise_map] at hwritten
  have hsize := Manifest.size_foldl_insert (m := .empty)
    (fun output : BuiltOutput => b.layout.key output.cssPath)
    (fun output => ⟨sourceOf output.entry, output.dependencies⟩)
      (by simp [Manifest.keys, Manifest.empty])
    hwritten
  rw [manifest, houtputs, hsize]
  exact Nat.zero_add _

/-- Without slashes in the names of groups and backslashes in the directory of the stylesheets,
the units of an accepted configuration keep their files apart exactly if no two of them clash.
Then every unit that succeeds keeps its files, and without backslashes in the paths of entries and
the names of groups the manifest has a record for every output. -/
theorem files_apart_iff_no_clash (hload : Config.load tree env path overrides = .ok c)
    (hplan : ofConfig c run scratch = .ok b) (hback : '\\' ∉ b.stylesDir.text)
    (hgroups : ∀ g ∈ b.groups, '/' ∉ g.name) :
    (∀ (t : FileTree) (units : List BuildUnit), t.WellNamed → b.discover t = .ok units →
      (units.Pairwise (BuildUnit.Apart b) ↔ units.Pairwise fun u v => ¬ BuildUnit.Clash b u v)) ∧
    ∀ (d d' : Disk) (report : BuildReport), d.tree.WellNamed → b.build d = .ok report d' →
      ∃ units, b.discover (b.prepared d).tree = .ok units ∧
        ((units.Pairwise fun u v => ¬ BuildUnit.Clash b u v) →
          (∀ output ∈ report.outputs, ∃ front u back after, units = front ++ u :: back ∧
            u.step b (stateAfter (front.mapM (BuildUnit.attempt b)) (b.prepared d)) =
              .ok output after ∧
            ∀ p ∈ u.produced b output, ∃ content, after.tree.lookup p = .ok (.file content) ∧
              d'.tree.lookup p = .ok (.file content)) ∧
          ((∀ u ∈ units, '\\' ∉ (u.source b).text) →
            (b.manifest report).size = report.outputs.length)) := by
  obtain ⟨hroot, hstyles⟩ := isAbsolute_of_ofConfig hload hplan
  have hiff : ∀ (t : FileTree) (units : List BuildUnit), t.WellNamed → b.discover t = .ok units →
      (units.Pairwise (BuildUnit.Apart b) ↔ units.Pairwise fun u v => ¬ BuildUnit.Clash b u v) :=
    fun t units hnamed h => pairwise_apart_iff hroot hstyles
      (placed_of_discover hnamed hstyles hback hgroups h) (distinct_of_discover h)
  refine ⟨hiff, fun d d' report hnamed hbuild => ?_⟩
  obtain ⟨units, outcomes, d₁, hunits, hrun, hreport, hmanifest⟩ := exists_of_build hbuild
  have hprepared := wellNamed_prepared b hnamed
  have hlies : ∀ u ∈ units, ∃ s, u.LiesAt b s := fun u hu =>
    BuildUnit.exists_liesAt hroot hstyles
      (placed_of_discover hprepared hstyles hback hgroups hunits u hu)
  have houtputs : report.outputs = outcomes.filterMap Except.toOption := by
    rw [hreport, BuildReport.outputs_foldl_record]
    rfl
  refine ⟨units, hunits, fun hclash => ?_⟩
  have hapart := (hiff _ units hprepared hunits).2 hclash
  refine ⟨fun output houtput => ?_, fun hsource =>
    size_manifest hroot hlies hapart hsource hrun houtputs⟩
  rw [houtputs, List.mem_filterMap] at houtput
  obtain ⟨outcome, houtcome, hok⟩ := houtput
  cases outcome with
  | error failure => cases hok
  | ok result =>
    cases hok
    obtain ⟨front, u, back, after, rest, rfl, hstep, hrest⟩ :=
      exists_split_of_mem_mapM hrun houtcome
    have hstep := BuildUnit.step_of_attempt hstep
    obtain ⟨s, hs⟩ := hlies u (by simp)
    obtain ⟨_, hsubset, hfiles⟩ := BuildUnit.of_step_ok hs hstep
    refine ⟨front, u, back, after, rfl, hstep, fun p hp => ?_⟩
    obtain ⟨content, hcontent⟩ := hfiles p hp
    exact ⟨content, hcontent, lookup_of_build hlies hapart hrest hmanifest (hsubset hp) hcontent⟩

/-! ### Two stylesheets side by side -/

/-- The stylesheet `a.sass` and one with the other extension. -/
def twinTree (stem : Text) : FileTree where
  entries := [(["r".toList], .directory), (["r".toList, "app".toList], .directory),
    (["r".toList, "app".toList, "assets".toList], .directory),
    (["r".toList, "app".toList, "assets".toList, "stylesheets".toList], .directory),
    (["r".toList, "app".toList, "assets".toList, "stylesheets".toList, "a.sass".toList],
      .file (.text ".a".toList)),
    (["r".toList, "app".toList, "assets".toList, "stylesheets".toList, stem ++ ".scss".toList],
      .file (.text ".b".toList))]
  workingDirectory := ["r".toList]

/-- The files when the output directory is ready. -/
def twinReady (stem : Text) : FileTree where
  entries := (twinTree stem).entries ++ [(["r".toList, "o".toList], .directory),
    (["r".toList, "o".toList, "single".toList], .directory),
    (["r".toList, "o".toList, "group".toList], .directory)]
  workingDirectory := ["r".toList]

/-- The output goes to `o` and is not compiled. -/
def twinOverrides : Overrides where
  root := none
  outputDir := some ⟨"o".toList⟩
  sassBinary := none
  sourceMap := none
  backend := some .passthrough

/-- The configuration of a project without a configuration file. -/
def twinConfig : Config :=
  (Config.withoutFile ⟨"/r".toList⟩).override twinOverrides

/-- The plan of the project. -/
def twinPlan : BuildPlan :=
  (ofConfig twinConfig strayRunner ⟨"/t".toList⟩).toOption.get rfl

/-- A stylesheet of the project. -/
def twinEntry (name : Text) : Path := ⟨"/r/app/assets/stylesheets/".toList ++ name⟩

/-- What is written for a stylesheet of its own. -/
def twinCss (name : Text) : Path := ⟨"/r/o/single/".toList ++ name⟩

/-- What `**/*` with an extension finds from the directory of the stylesheets on. -/
def twinMatches (stem ext : Text) : List Path :=
  Glob.below (twinReady stem)
    (fun name p => if Glob.accepts (.sequence :: ext.map .literal) name then [p] else []) 10
    twinPlan.stylesDir

section Twins

variable {stem : Text} (h : stem = "a".toList ∨ stem = "b".toList)
include h

-- Sorting and dropping repeats do not compute, so each is rewritten where the run reaches it.

private theorem twin_names : (twinReady stem).names twinPlan.stylesDir =
    .ok ["a.sass".toList, stem ++ ".scss".toList] := by
  have hnames : (twinReady stem).names twinPlan.stylesDir =
      .ok (["a.sass".toList, stem ++ ".scss".toList].mergeSort Text.le) := by
    rcases h with rfl | rfl <;> rfl
  rw [hnames, List.mergeSort_of_pairwise]
  rcases h with rfl | rfl <;> decide

private theorem twin_findAll :
    twinPlan.discovery.findAll (twinReady stem) Discovery.entryPatterns =
    .ok [twinEntry (stem ++ ".scss".toList), twinEntry "a.sass".toList] := by
  have hroutes : twinPlan.discovery.findAll (twinReady stem) Discovery.entryPatterns =
      .ok (twinMatches stem ".scss".toList ++ (twinMatches stem ".sass".toList ++ [])) := by
    rcases h with rfl | rfl <;> rfl
  rw [hroutes]
  simp only [twinMatches, Glob.below, Glob.visibleChildren, twin_names h]
  rcases h with rfl | rfl <;> rfl

private theorem twin_ordered :
    Discovery.ordered [twinEntry (stem ++ ".scss".toList), twinEntry "a.sass".toList] =
      [twinEntry "a.sass".toList, twinEntry (stem ++ ".scss".toList)] := by
  have hsort : ∀ paths : List Path,
      paths.mergeSort Path.le = paths.insertionSort fun p q => p.le q = true :=
    mergeSort_eq_insertionSort_of_total (fun _ _ _ => Path.leComponents_trans)
      fun _ _ => Path.leComponents_total _ _
  have hsorted : [twinEntry (stem ++ ".scss".toList),
      twinEntry "a.sass".toList].mergeSort Path.le =
      [twinEntry "a.sass".toList, twinEntry (stem ++ ".scss".toList)] := by
    rw [hsort]
    rcases h with rfl | rfl <;> decide
  have hdiffer : ¬ (twinEntry "a.sass".toList).same
      (twinEntry (stem ++ ".scss".toList)) = true := by
    rcases h with rfl | rfl <;> decide
  rw [Discovery.ordered, hsorted, Discovery.dropRepeats, if_neg hdiffer]
  simp [Discovery.dropRepeats]

private theorem twin_entries : twinPlan.discovery.entries (twinReady stem) [] =
    .ok [twinEntry "a.sass".toList, twinEntry (stem ++ ".scss".toList)] := by
  have hentries : twinPlan.discovery.entries (twinReady stem) [] =
      .ok (Discovery.ordered [twinEntry (stem ++ ".scss".toList),
        twinEntry "a.sass".toList]) := by
    rw [Discovery.entries, twin_findAll h]
    rcases h with rfl | rfl <;> rfl
  rw [hentries, twin_ordered h]

private theorem twin_discover : twinPlan.discover (twinReady stem) =
    .ok [.entry (twinEntry "a.sass".toList), .entry (twinEntry (stem ++ ".scss".toList))] := by
  have hpatterns : twinPlan.groupPatterns = .ok [] := rfl
  exact bind_eq_ok_iff.2 ⟨[], hpatterns, bind_eq_ok_iff.2 ⟨_, twin_entries h, rfl⟩⟩

private theorem twin_prepare :
    twinPlan.layout.prepare ⟨twinTree stem, []⟩ = .ok () ⟨twinReady stem, []⟩ := by
  rcases h with rfl | rfl <;> rfl

private theorem twin_build : ∃ report d, twinPlan.build ⟨twinTree stem, []⟩ = .ok report d ∧
    report.outputs.map BuiltOutput.cssPath =
      [twinCss "a.css".toList, twinCss (stem ++ ".css".toList)] ∧
    (stem = "a".toList → (twinPlan.manifest report).size = 1) := by
  have hclear : clearCache ⟨twinTree stem, []⟩ = .ok () ⟨twinTree stem, []⟩ := rfl
  have hpatterns : asking (fun _ => twinPlan.groupPatterns) ⟨twinReady stem, []⟩ =
      .ok [] ⟨twinReady stem, []⟩ := rfl
  have hentries : asking (fun tree => twinPlan.discovery.entries tree []) ⟨twinReady stem, []⟩ =
      .ok [twinEntry "a.sass".toList, twinEntry (stem ++ ".scss".toList)]
        ⟨twinReady stem, []⟩ := by
    rw [asking, twin_entries h]
  rw [build, bind_of_ok hclear, bind_of_ok (twin_prepare h), bind_of_ok hpatterns,
    bind_of_ok hentries]
  apply exists_of_succeeds
  rcases h with rfl | rfl <;> decide +kernel

end Twins

private theorem twin_wellNamed : (twinTree "b".toList).WellNamed where
  entries := by decide
  workingDirectory := by decide

/-- Stylesheets of different names keep their files, and each has its record. -/
theorem twins_apart : ∃ report d',
    Config.load (twinTree "b".toList) ⟨[], none⟩ none (some twinOverrides) = .ok twinConfig ∧
    ofConfig twinConfig strayRunner ⟨"/t".toList⟩ = .ok twinPlan ∧
    (twinTree "b".toList).WellNamed ∧
    twinPlan.build ⟨twinTree "b".toList, []⟩ = .ok report d' ∧
    report.outputs.map BuiltOutput.cssPath = [twinCss "a.css".toList, twinCss "b.css".toList] ∧
    BuildUnit.Apart twinPlan (.entry (twinEntry "a.sass".toList))
      (.entry (twinEntry "b.scss".toList)) ∧
    (∀ output ∈ report.outputs, ∃ content, d'.tree.lookup output.cssPath = .ok (.file content)) ∧
    (twinPlan.manifest report).size = 2 := by
  have hload : Config.load (twinTree "b".toList) ⟨[], none⟩ none (some twinOverrides) =
      .ok twinConfig := rfl
  have hplan : ofConfig twinConfig strayRunner ⟨"/t".toList⟩ = .ok twinPlan := rfl
  have hready : twinPlan.prepared ⟨twinTree "b".toList, []⟩ = ⟨twinReady "b".toList, []⟩ :=
    stateAfter_of_ok (twin_prepare (.inr rfl))
  have hdiscover := twin_discover (.inr (Eq.refl "b".toList))
  obtain ⟨report, d', hbuild, hpaths, _⟩ := twin_build (.inr (Eq.refl "b".toList))
  obtain ⟨hapart, hruns⟩ := files_apart_iff_no_clash hload hplan (by decide) (by decide)
  obtain ⟨units, hunits, hkept⟩ := hruns _ d' report twin_wellNamed hbuild
  rw [hready, hdiscover] at hunits
  cases hunits
  have hclash : [BuildUnit.entry (twinEntry "a.sass".toList),
      .entry (twinEntry "b.scss".toList)].Pairwise fun u v => ¬ BuildUnit.Clash twinPlan u v := by
    rw [List.pairwise_pair, BuildUnit.Clash, BuildUnit.DifferInExtension]
    decide
  obtain ⟨hfiles, hsize⟩ := hkept hclash
  have hnamed := wellNamed_prepared twinPlan (d := ⟨twinTree "b".toList, []⟩) twin_wellNamed
  rw [hready] at hnamed
  have hpair := (hapart _ _ hnamed hdiscover).2 hclash
  refine ⟨report, d', hload, hplan, twin_wellNamed, hbuild, hpaths,
    List.pairwise_pair.1 hpair, ?_, ?_⟩
  · intro output houtput
    obtain ⟨_, u, _, _, _, _, hthere⟩ := hfiles output houtput
    obtain ⟨content, _, hcontent⟩ := hthere output.cssPath List.mem_cons_self
    exact ⟨content, hcontent⟩
  · rw [hsize (by decide), ← List.length_map BuiltOutput.cssPath, hpaths]
    rfl

/-- The stylesheets `a.sass` and `a.scss` are both reported as built.  One CSS file and one record
are left of them. -/
theorem twins_overwritten : ∃ report d',
    Config.load (twinTree "a".toList) ⟨[], none⟩ none (some twinOverrides) = .ok twinConfig ∧
    ofConfig twinConfig strayRunner ⟨"/t".toList⟩ = .ok twinPlan ∧
    twinPlan.build ⟨twinTree "a".toList, []⟩ = .ok report d' ∧
    report.outputs.map BuiltOutput.cssPath = [twinCss "a.css".toList, twinCss "a.css".toList] ∧
    (twinPlan.manifest report).size = 1 := by
  obtain ⟨report, d', hbuild, hpaths, hsize⟩ := twin_build (.inl rfl)
  exact ⟨report, d', rfl, rfl, hbuild, hpaths, hsize rfl⟩

end BuildPlan

end StyleBundle

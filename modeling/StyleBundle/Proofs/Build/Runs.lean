import StyleBundle.Proofs.Build.Prepare
import StyleBundle.Proofs.Build.Units
import StyleBundle.Proofs.Expansion.Reads
import StyleBundle.Proofs.FileTree.Write

/-!
# What a unit does to the files

A unit changes the files under its own paths and makes directories, nothing else
(`BuildUnit.keeps_step`).  If it succeeds, then its files are there (`BuildUnit.of_step_ok`).
A build runs its units one after the other (`BuildPlan.exists_of_build`).
-/

namespace StyleBundle

open FileTree

/-- A property of trees that is kept by files written under some paths, and by the directories
that are made for them. -/
structure UpdateInvariant (paths : List Path) (P : FileTree → Prop) : Prop where
  growth : ∀ p ∈ paths, ∀ up, p.parent? = some up → GrowthInvariant up.ancestors P
  write : WriteInvariant paths P

theorem updateInvariant_lookup {paths : List Path} {p : Path} {node : Node}
    (h : ∀ q ∈ paths, Elsewhere p q) : UpdateInvariant paths fun t => t.lookup p = .ok node :=
  ⟨fun _ _ up _ => growthInvariant_lookup up.ancestors p node, writeInvariant_lookup h⟩

/-- A property of disks that is kept by such updates of the tree, and by remembering what was
read. -/
structure RunInvariant (paths : List Path) (P : Disk → Prop) : Prop where
  update : ∀ cache, UpdateInvariant paths fun t => P ⟨t, cache⟩
  remember : ∀ d reads, (∀ entry ∈ reads, d.read entry.1 = .ok entry.2) → P d →
    P (d.rememberAll reads)

theorem UpdateInvariant.run {paths : List Path} {P : FileTree → Prop}
    (h : UpdateInvariant paths P) :
    RunInvariant paths fun d => P d.tree := by
  refine ⟨fun _ => h, fun d reads _ hd => ?_⟩
  rw [Disk.tree_rememberAll]
  exact hd

/-- Where nothing is written, the tree stays as it is. -/
theorem runInvariant_tree (t : FileTree) : RunInvariant [] fun d => d.tree = t :=
  UpdateInvariant.run (P := fun t' => t' = t) ⟨by simp, by simp [WriteInvariant]⟩

/-! ## Writing -/

namespace Layout

variable {P : Disk → Prop} {paths : List Path} {p cssPath : Path} {d d' : Disk}

theorem keeps_writeFile (hP : RunInvariant paths P) (hp : p ∈ paths) (content : Text) :
    Keeps P (writeFile p content) := by
  have hwrite := Building.keeps_onFiles
    (fun cache => keeps_write (hP.update cache).write hp content) p
  rw [writeFile]
  cases hparent : p.parent? with
  | none => exact (keeps_pure ()).bind fun _ => hwrite
  | some directory =>
    have hmake := fun cache =>
      keeps_makeDirectories ((hP.update cache).growth p hp directory hparent)
    exact (Building.keeps_onFiles hmake directory).bind fun _ => hwrite

theorem keeps_writeStylesheet (hP : RunInvariant paths P) (hcss : cssPath ∈ paths)
    (hmap : mapPath cssPath ∈ paths) (css : Text) (sourceMap : Option Text) :
    Keeps P (writeStylesheet cssPath css sourceMap) := by
  cases sourceMap with
  | none => exact (keeps_writeFile hP hcss css).bind fun _ => keeps_pure none
  | some sourceMap =>
    exact (keeps_writeFile hP hcss _).bind fun _ =>
      (keeps_writeFile hP hmap sourceMap).bind fun _ => keeps_pure _

theorem lookup_writeFile {content : Text} (h : writeFile p content d = .ok () d') :
    d'.tree.lookup p = .ok (.file (.text content)) := by
  obtain ⟨between, hrun⟩ : ∃ between, Building.onFiles p (write p (.text content)) between =
      .ok () d' := by
    rw [writeFile] at h
    cases hparent : p.parent? with
    | none =>
      rw [hparent] at h
      exact ⟨d, h⟩
    | some directory =>
      rw [hparent] at h
      obtain ⟨_, between, _, h⟩ := exists_of_bind_ok h
      exact ⟨between, h⟩
  rw [Building.onFiles] at hrun
  split at hrun
  · rename_i tree hwrite
    cases hrun
    exact lookup_write hwrite
  · cases hrun

/-- A stylesheet and its source map are there once they are written. -/
theorem of_writeStylesheet_ok {css : Text} {sourceMap : Option Text} {map : Option Path}
    (hmap : Elsewhere cssPath (mapPath cssPath))
    (h : writeStylesheet cssPath css sourceMap d = .ok map d') :
    (∀ p ∈ map.toList, p = mapPath cssPath) ∧
      ∀ p ∈ cssPath :: map.toList, ∃ content, d'.tree.lookup p = .ok (.file content) := by
  cases sourceMap with
  | none =>
    obtain ⟨_, d₁, hcss, h⟩ := exists_of_bind_ok h
    cases h
    simpa using ⟨_, lookup_writeFile hcss⟩
  | some sourceMap =>
    obtain ⟨_, d₁, hcss, h⟩ := exists_of_bind_ok h
    obtain ⟨_, d₂, hwrite, h⟩ := exists_of_bind_ok h
    cases h
    have hP : UpdateInvariant [mapPath cssPath] fun t => t.lookup cssPath =
        .ok (.file (.text (withMapComment cssPath css))) :=
          updateInvariant_lookup (by simpa using hmap)
    have hthere := (keeps_writeFile hP.run (by simp) sourceMap).of_ok
      (lookup_writeFile hcss) hwrite
    simpa using ⟨⟨_, hthere⟩, _, lookup_writeFile hwrite⟩

end Layout

namespace BuildPlan

variable {b : BuildPlan} {P : Disk → Prop} {paths : List Path} {d d' : Disk}

/-! ## Building one unit -/

theorem keeps_expanding (b : BuildPlan) (hP : RunInvariant paths P) (r : Request) :
    Keeps P (b.expanding r.run) := by
  intro d h
  have hreads : ∀ entry ∈ (stateAfter (r.run ⟨b.settings, d.source⟩) .start).reads,
      d.read entry.1 = .ok entry.2 := r.read_of_mem_reads ⟨b.settings, d.source⟩ .empty
  have hafter := hP.remember d _ hreads h
  rw [stateAfter] at hafter
  rw [stateAfter, expanding]
  cases hrun : r.run ⟨b.settings, d.source⟩ .start with
  | ok expanded session =>
    rw [hrun] at hafter
    exact hafter
  | error cause session =>
    rw [hrun] at hafter
    exact hafter

theorem keeps_compiling (b : BuildPlan) (expanded : Text) (logical : Path) :
    Keeps P (b.compiling expanded logical) := by
  intro d h
  rw [stateAfter, compiling]
  cases b.compilation.compile d.tree expanded logical <;> exact h

theorem keeps_asking {α : Type} (question : FileTree → Except BuildError α) :
    Keeps P (asking question) := by
  intro d h
  rw [stateAfter, asking]
  cases question d.tree <;> exact h

theorem keeps_expandMembers (b : BuildPlan) (hP : RunInvariant paths P) (members : List Path) :
    Keeps P (b.expandMembers members) := by
  induction members with
  | nil => exact keeps_pure _
  | cons p rest ih =>
    rw [expandMembers]
    exact (keeps_expanding b hP (.bundle p)).bind fun first => ih.bind fun more => keeps_pure _

theorem keeps_compileAndWrite {intermediate cssPath : Path} (hP : RunInvariant paths P)
    (hcss : cssPath ∈ paths) (hmap : Layout.mapPath cssPath ∈ paths)
    (hinput : b.preserveIntermediate = true → b.layout.intermediatePath intermediate ∈ paths)
    (entry : Entry) (expanded : Expanded) (logical : Path) :
    Keeps P (b.compileAndWrite entry expanded logical intermediate cssPath) := by
  rw [compileAndWrite]
  refine (keeps_compiling b _ _).bind fun compiled => ?_
  have hwrite := Layout.keeps_writeStylesheet hP hcss hmap compiled.output.css
    compiled.output.sourceMap
  split
  · rename_i hpreserve
    exact (Layout.keeps_writeFile hP (hinput hpreserve) _).bind fun _ =>
      hwrite.bind fun _ => keeps_pure _
  · exact hwrite.bind fun _ => keeps_pure _

theorem of_compileAndWrite_ok {entry : Entry} {expanded : Expanded}
    {logical intermediate cssPath : Path} {output : BuiltOutput}
    (hmap : Elsewhere cssPath (Layout.mapPath cssPath))
    (hinput : ∀ p ∈ [cssPath, Layout.mapPath cssPath],
      Elsewhere (b.layout.intermediatePath intermediate) p)
    (h : b.compileAndWrite entry expanded logical intermediate cssPath d = .ok output d') :
    output.cssPath = cssPath ∧ (∀ p ∈ output.mapPath.toList, p = Layout.mapPath cssPath) ∧
      ∀ p ∈ (cssPath :: output.mapPath.toList) ++
          if b.preserveIntermediate then [b.layout.intermediatePath intermediate] else [],
        ∃ content, d'.tree.lookup p = .ok (.file content) := by
  obtain ⟨compiled, d₁, _, h⟩ := exists_of_bind_ok h
  split at h
  · rename_i hpreserve
    obtain ⟨_, d₂, hwrite, h⟩ := exists_of_bind_ok h
    obtain ⟨map, d₃, hsheet, h⟩ := exists_of_bind_ok h
    cases h
    obtain ⟨hpath, hfiles⟩ := Layout.of_writeStylesheet_ok hmap hsheet
    have hP : UpdateInvariant [cssPath, Layout.mapPath cssPath] fun t =>
        t.lookup (b.layout.intermediatePath intermediate) = .ok (.file (.text compiled.input)) :=
      updateInvariant_lookup hinput
    have hthere := (Layout.keeps_writeStylesheet hP.run (by simp) (by simp) _ _).of_ok
      (Layout.lookup_writeFile hwrite) hsheet
    refine ⟨rfl, hpath, fun p hp => ?_⟩
    rw [if_pos hpreserve, List.mem_append, List.mem_singleton] at hp
    rcases hp with hp | rfl
    · exact hfiles p hp
    · exact ⟨_, hthere⟩
  · rename_i hpreserve
    obtain ⟨map, d₂, hsheet, h⟩ := exists_of_bind_ok h
    cases h
    obtain ⟨hpath, hfiles⟩ := Layout.of_writeStylesheet_ok hmap hsheet
    rw [if_neg hpreserve, List.append_nil]
    exact ⟨rfl, hpath, hfiles⟩

end BuildPlan

namespace BuildUnit

variable {b : BuildPlan} {u : BuildUnit} {s : Spot} {P : Disk → Prop} {d d' : Disk}

/-- Builds the unit. -/
def step (b : BuildPlan) : BuildUnit → Building BuiltOutput
  | entry p => b.buildSingle p
  | group g => b.buildGroup g

/-- The name of the unit in a report. -/
def label (b : BuildPlan) : BuildUnit → Entry
  | entry p => .single (b.discovery.relative p)
  | group g => .group g.name

/-- The file that the expanded text stands in. -/
def logical (b : BuildPlan) : BuildUnit → Path
  | entry p => p
  | group g => b.stylesDir.push (BuildPlan.groupFile g)

/-- Expands what the unit is made of. -/
def expansion (b : BuildPlan) : BuildUnit → Building Expanded
  | entry p => b.expanding (·.expandFile p)
  | group g => do
    let members ← BuildPlan.asking fun tree => b.discovery.members tree g.patterns
    b.expandMembers members

/-- A unit is expanded, then compiled and written. -/
theorem step_eq_bind (b : BuildPlan) (u : BuildUnit) :
    u.step b = u.expansion b >>= fun expanded =>
      b.compileAndWrite (u.label b) expanded (u.logical b) (u.source b) (u.cssPath b) := by
  cases u with
  | entry p => rfl
  | group g => rw [expansion, bind_assoc]; rfl

theorem keeps_expansion (b : BuildPlan) {paths : List Path} (hP : RunInvariant paths P)
    (u : BuildUnit) :
    Keeps P (u.expansion b) := by
  cases u with
  | entry p => exact BuildPlan.keeps_expanding b hP (.file p)
  | group g =>
    exact (BuildPlan.keeps_asking _).bind fun members =>
      BuildPlan.keeps_expandMembers b hP members

theorem keeps_step (hP : RunInvariant (u.written b) P) : Keeps P (u.step b) := by
  have hcss : u.cssPath b ∈ u.written b := by simp [written]
  have hmap : Layout.mapPath (u.cssPath b) ∈ u.written b := by simp [written]
  have hinput : b.preserveIntermediate = true →
      b.layout.intermediatePath (u.source b) ∈ u.written b := by
    intro hpreserve
    simp [written, hpreserve]
  rw [step_eq_bind]
  exact (keeps_expansion b hP u).bind fun expanded =>
    BuildPlan.keeps_compileAndWrite hP hcss hmap hinput _ _ _

/-- The files that a unit leaves when it succeeds. -/
def produced (b : BuildPlan) (u : BuildUnit) (output : BuiltOutput) : List Path :=
  output.cssPath :: output.mapPath.toList ++
    if b.preserveIntermediate then [b.layout.intermediatePath (u.source b)] else []

theorem LiesAt.elsewhere (h : u.LiesAt b s) :
    Elsewhere (u.cssPath b) (Layout.mapPath (u.cssPath b)) ∧
      ∀ p ∈ [u.cssPath b, Layout.mapPath (u.cssPath b)],
        Elsewhere (b.layout.intermediatePath (u.source b)) p := by
  have hcss := h.components_css
  have hmap := h.components_map
  have hinput := h.components_intermediate
  refine ⟨elsewhere_of_names hcss hmap (Spot.css_ne_map s s), ?_⟩
  intro p hp
  simp only [List.mem_cons, List.not_mem_nil, or_false] at hp
  rcases hp with rfl | rfl
  · exact elsewhere_of_names hinput hcss (Spot.css_ne_intermediate h.folder s).symm
  · exact elsewhere_of_names hinput hmap (Spot.map_ne_intermediate h.folder s).symm

/-- A unit that succeeds leaves its files. -/
theorem of_step_ok {output : BuiltOutput} (hlies : u.LiesAt b s)
    (h : u.step b d = .ok output d') :
    output.cssPath = u.cssPath b ∧ u.produced b output ⊆ u.written b ∧
      ∀ p ∈ u.produced b output, ∃ content, d'.tree.lookup p = .ok (.file content) := by
  obtain ⟨hmap, hinput⟩ := hlies.elsewhere
  rw [step_eq_bind] at h
  obtain ⟨expanded, d₁, _, hrun⟩ := exists_of_bind_ok h
  obtain ⟨hcss, hmaps, hfiles⟩ := BuildPlan.of_compileAndWrite_ok hmap hinput hrun
  rw [produced, hcss]
  refine ⟨rfl, ?_, hfiles⟩
  intro p hp
  rw [written, List.mem_append]
  rcases List.mem_append.1 hp with hp | hp
  · left
    rcases List.mem_cons.1 hp with rfl | hp
    · simp
    · simp [hmaps p hp]
  · exact .inr hp

/-! ## Running all units -/

/-- Builds the unit and tells how it went. -/
def attempt (b : BuildPlan) (u : BuildUnit) : Building (Except EntryFailure BuiltOutput) :=
  BuildPlan.attempt (u.label b) (u.step b)

theorem step_of_attempt {output : BuiltOutput} (h : u.attempt b d = .ok (.ok output) d') :
    u.step b d = .ok output d' := by
  rw [attempt, BuildPlan.attempt] at h
  split at h
  · rename_i hstep
    cases h
    exact hstep
  · cases h

theorem keeps_attempt (hP : RunInvariant (u.written b) P) : Keeps P (u.attempt b) := by
  intro d h
  rw [stateAfter, attempt, BuildPlan.attempt]
  cases hstep : u.step b d with
  | ok output d' => exact (keeps_step hP).of_ok h hstep
  | error cause d' => exact (keeps_step hP).of_error h hstep

end BuildUnit

namespace BuildPlan

variable {b : BuildPlan} {d d' : Disk}

/-- The units of a build in the order in which they run. -/
def discover (b : BuildPlan) (tree : FileTree) : Except BuildError (List BuildUnit) := do
  let groups ← b.groupPatterns
  let entries ← b.discovery.entries tree groups
  return entries.map .entry ++ b.groups.map .group

/-- A unit is an entry that was found or a group of the plan. -/
theorem cases_of_mem_discover {tree : FileTree} {units : List BuildUnit}
    (h : b.discover tree = .ok units) {u : BuildUnit} (hu : u ∈ units) :
    (∃ p groups entries, b.discovery.entries tree groups = .ok entries ∧ p ∈ entries ∧
      u = .entry p) ∨ ∃ g ∈ b.groups, u = .group g := by
  obtain ⟨groups, _, h⟩ := bind_eq_ok_iff.1 h
  obtain ⟨entries, hentries, h⟩ := bind_eq_ok_iff.1 h
  cases h
  rcases List.mem_append.1 hu with hu | hu
  · obtain ⟨p, hp, rfl⟩ := List.mem_map.1 hu
    exact .inl ⟨p, groups, entries, hentries, hp, rfl⟩
  · obtain ⟨g, hg, rfl⟩ := List.mem_map.1 hu
    exact .inr ⟨g, hg, rfl⟩

/-- The disk when the units start to run. -/
def prepared (b : BuildPlan) (d : Disk) : Disk :=
  stateAfter b.layout.prepare d.clearCache

theorem exists_of_asking_ok {α : Type} {question : FileTree → Except BuildError α} {found : α}
    (h : asking question d = .ok found d') : question d.tree = .ok found ∧ d' = d := by
  rw [asking] at h
  split at h
  · rename_i hquestion
    cases h
    exact ⟨hquestion, rfl⟩
  · cases h

/-- A build prepares the output directory, runs all units and writes the manifest. -/
theorem exists_of_build {report : BuildReport} (h : b.build d = .ok report d') :
    ∃ units outcomes d₁, b.discover (b.prepared d).tree = .ok units ∧
      units.mapM (BuildUnit.attempt b) (b.prepared d) = .ok outcomes d₁ ∧
      report = outcomes.foldl BuildReport.record .empty ∧
      b.layout.writeManifest (b.manifest report) d₁ = .ok () d' := by
  obtain ⟨_, _, hclear, hrest⟩ := exists_of_bind_ok h
  cases hclear
  obtain ⟨_, d₀, hprepare, hrest⟩ := exists_of_bind_ok hrest
  have hprepared : b.prepared d = d₀ := stateAfter_of_ok hprepare
  obtain ⟨groups, d₁, hgroups, hrest⟩ := exists_of_bind_ok hrest
  obtain ⟨hgroups, hsame⟩ := exists_of_asking_ok hgroups
  rw [hsame] at hrest
  obtain ⟨entries, d₂, hentries, hrest⟩ := exists_of_bind_ok hrest
  obtain ⟨hentries, hsame⟩ := exists_of_asking_ok hentries
  rw [hsame] at hrest
  obtain ⟨singles, d₃, hsingles, hrest⟩ := exists_of_bind_ok hrest
  obtain ⟨bundles, d₄, hbundles, hrest⟩ := exists_of_bind_ok hrest
  obtain ⟨_, d₅, hmanifest, hrest⟩ := exists_of_bind_ok hrest
  cases hrest
  rw [hprepared]
  refine ⟨entries.map .entry ++ b.groups.map .group, singles ++ bundles, d₄, ?_, ?_,
    rfl, hmanifest⟩
  · exact bind_eq_ok_iff.2 ⟨groups, hgroups, bind_eq_ok_iff.2 ⟨entries, hentries, rfl⟩⟩
  · have hentries : entries.mapM (BuildUnit.attempt b ∘ .entry) d₀ = .ok singles d₃ := hsingles
    have hgroups : b.groups.mapM (BuildUnit.attempt b ∘ .group) d₃ = .ok bundles d₄ := hbundles
    rw [List.mapM_append, List.mapM_map, List.mapM_map, bind_of_ok hentries, bind_of_ok hgroups]
    rfl

end BuildPlan

end StyleBundle

import StyleBundle.Proofs.Build.Manifest
import StyleBundle.Proofs.Json.Members

/-!
# What a report accounts for

The outputs and the failures of a report are together the units of the build, each of the two
lists in the order in which the units ran (`BuildReport.Accounts`).  A unit fails before it writes
anything, or because it cannot write (`BuildUnit.tree_of_step_error`).  The manifest has the
records of the outputs and no others (`BuildPlan.mem_keys_manifest`,
`BuildPlan.exists_of_mem_manifest`).
-/

namespace StyleBundle

/-! ## Records of a manifest -/

namespace Manifest

variable {α : Type} {key : α → Text} {record : α → ManifestRecord} {items : List α} {m : Manifest}

theorem mem_keys_foldl_insert {text : Text} :
    text ∈ (items.foldl (fun m a => m.insert (key a) (record a)) m).keys ↔
      text ∈ m.keys ∨ ∃ a ∈ items, key a = text := by
  induction items generalizing m with
  | nil => simp
  | cons a items ih =>
    have hinsert : text ∈ (m.insert (key a) (record a)).keys ↔ text = key a ∨ text ∈ m.keys :=
      Json.mem_names_insertMember
    rw [List.foldl_cons, ih, hinsert, List.exists_mem_cons_iff, eq_comm (a := text)]
    tauto

theorem cases_of_mem_foldl_insert {entry : Text × ManifestRecord}
    (h : entry ∈ (items.foldl (fun m a => m.insert (key a) (record a)) m).records) :
    entry ∈ m.records ∨ ∃ a ∈ items, entry = (key a, record a) := by
  induction items generalizing m with
  | nil => exact .inl h
  | cons a items ih =>
    rw [List.foldl_cons] at h
    rcases ih h with hentry | ⟨c, hc, hentry⟩
    · exact (Json.mem_of_mem_insertMember hentry).symm.imp_right fun hentry =>
        ⟨a, List.mem_cons_self, hentry⟩
    · exact .inr ⟨c, List.mem_cons_of_mem a hc, hentry⟩

theorem sorted_foldl_insert (h : Json.Sorted m.records) :
    Json.Sorted (items.foldl (fun m a => m.insert (key a) (record a)) m).records := by
  induction items generalizing m with
  | nil => exact h
  | cons a items ih => exact ih (h.insertMember (key a) (record a))

end Manifest

/-! ## Outcomes of units -/

namespace BuildReport

variable {report : BuildReport} {entries : List Entry}
  {outcomes : List (Except EntryFailure BuiltOutput)}

/-- The entry that an outcome is about. -/
def entryOf : Except EntryFailure BuiltOutput → Entry
  | .ok output => output.entry
  | .error failure => failure.entry

/-- The report names every entry of the list once, as an output or as a failure, and names outputs
and failures in the order of the list. -/
structure Accounts (report : BuildReport) (entries : List Entry) : Prop where
  once :
    (report.outputs.map BuiltOutput.entry ++ report.failures.map EntryFailure.entry).Perm entries
  outputs : (report.outputs.map BuiltOutput.entry).Sublist entries
  failures : (report.failures.map EntryFailure.entry).Sublist entries

theorem Accounts.record (h : report.Accounts entries)
    (outcome : Except EntryFailure BuiltOutput) :
    (report.record outcome).Accounts (entries ++ [entryOf outcome]) := by
  cases outcome with
  | ok output =>
    refine ⟨?_, ?_, h.failures.trans (List.sublist_append_left _ _)⟩
    · rw [BuildReport.record, List.map_append, List.append_assoc]
      exact (List.perm_append_comm.append_left _).trans
        (List.append_assoc .. ▸ h.once.append_right [output.entry])
    · rw [BuildReport.record, List.map_append]
      exact h.outputs.append (.refl _)
  | error failure =>
    refine ⟨?_, h.outputs.trans (List.sublist_append_left _ _), ?_⟩
    · rw [BuildReport.record, List.map_append, ← List.append_assoc]
      exact h.once.append_right [failure.entry]
    · rw [BuildReport.record, List.map_append]
      exact h.failures.append (.refl _)

theorem Accounts.foldl_record (h : report.Accounts entries)
    (outcomes : List (Except EntryFailure BuiltOutput)) :
    (outcomes.foldl BuildReport.record report).Accounts (entries ++ outcomes.map entryOf) := by
  induction outcomes generalizing report entries with
  | nil => simpa using h
  | cons outcome outcomes ih => simpa using ih (h.record outcome)

theorem mem_failures_foldl_record {failure : EntryFailure} :
    failure ∈ (outcomes.foldl record report).failures ↔
      failure ∈ report.failures ∨ .error failure ∈ outcomes := by
  induction outcomes generalizing report with
  | nil => simp
  | cons outcome outcomes ih =>
    rw [List.foldl_cons, ih, List.mem_cons]
    cases outcome with
    | ok output => simp [record]
    | error other => simp [record, or_assoc]

end BuildReport

/-! ## Units that fail -/

/-- The error is about a file that could not be written. -/
def BuildError.IsWrite : BuildError → Prop
  | write _ _ => True
  | _ => False

theorem Building.isWrite_of_onFiles {path : Path} {step : FileTree.Action Unit}
    {cause : BuildError} {d d' : Disk} (h : onFiles path step d = .error cause d') :
    cause.IsWrite := by
  rw [onFiles] at h
  split at h
  · cases h
  · cases h
    trivial

namespace Layout

variable {p cssPath : Path} {cause : BuildError} {d d' : Disk}

theorem isWrite_of_writeFile {content : Text} (h : writeFile p content d = .error cause d') :
    cause.IsWrite := by
  rw [writeFile] at h
  cases hparent : p.parent? with
  | none =>
    rw [hparent] at h
    exact Building.isWrite_of_onFiles h
  | some directory =>
    rw [hparent] at h
    rcases cases_of_bind_error h with h | ⟨_, _, _, h⟩
    · exact Building.isWrite_of_onFiles h
    · exact Building.isWrite_of_onFiles h

theorem isWrite_of_writeStylesheet {css : Text} {sourceMap : Option Text}
    (h : writeStylesheet cssPath css sourceMap d = .error cause d') : cause.IsWrite := by
  cases sourceMap with
  | none =>
    rcases cases_of_bind_error h with h | ⟨_, _, _, h⟩
    · exact isWrite_of_writeFile h
    · cases h
  | some sourceMap =>
    rcases cases_of_bind_error h with h | ⟨_, _, _, h⟩
    · exact isWrite_of_writeFile h
    rcases cases_of_bind_error h with h | ⟨_, _, _, h⟩
    · exact isWrite_of_writeFile h
    · cases h

end Layout

namespace BuildPlan

variable {b : BuildPlan} {cause : BuildError} {d d' : Disk}

theorem eq_of_compiling {expanded : Text} {logical : Path} :
    stateAfter (b.compiling expanded logical) d = d := by
  rw [stateAfter, compiling]
  cases b.compilation.compile d.tree expanded logical <;> rfl

/-- Compiling fails before anything is written. -/
theorem cases_of_compileAndWrite_error {entry : Entry} {expanded : Expanded}
    {logical intermediate cssPath : Path}
    (h : b.compileAndWrite entry expanded logical intermediate cssPath d = .error cause d') :
    cause.IsWrite ∨ d' = d := by
  rcases cases_of_bind_error h with h | ⟨compiled, d₁, _, h⟩
  · right
    rw [← stateAfter_of_error h, eq_of_compiling]
  left
  -- Only the files are left to be written.
  split at h
  · rcases cases_of_bind_error h with h | ⟨_, _, _, h⟩
    · exact Layout.isWrite_of_writeFile h
    rcases cases_of_bind_error h with h | ⟨_, _, _, h⟩
    · exact Layout.isWrite_of_writeStylesheet h
    · cases h
  · rcases cases_of_bind_error h with h | ⟨_, _, _, h⟩
    · exact Layout.isWrite_of_writeStylesheet h
    · cases h

theorem entry_of_compileAndWrite {entry : Entry} {expanded : Expanded}
    {logical intermediate cssPath : Path} {output : BuiltOutput}
    (h : b.compileAndWrite entry expanded logical intermediate cssPath d = .ok output d') :
    output.entry = entry ∧ output.cssPath = cssPath := by
  obtain ⟨compiled, d₁, _, h⟩ := exists_of_bind_ok h
  split at h
  · obtain ⟨_, d₂, _, h⟩ := exists_of_bind_ok h
    obtain ⟨map, d₃, _, h⟩ := exists_of_bind_ok h
    cases h
    exact ⟨rfl, rfl⟩
  · obtain ⟨map, d₂, _, h⟩ := exists_of_bind_ok h
    cases h
    exact ⟨rfl, rfl⟩

end BuildPlan

namespace BuildUnit

variable {b : BuildPlan} {u : BuildUnit} {cause : BuildError} {d d' : Disk}

/-- A unit that fails for another reason than writing leaves the files as they are. -/
theorem tree_of_step_error (h : u.step b d = .error cause d') (hcause : ¬ cause.IsWrite) :
    d'.tree = d.tree := by
  have hexpansion := keeps_expansion b (runInvariant_tree d.tree) u
  rw [step_eq_bind] at h
  rcases cases_of_bind_error h with h | ⟨expanded, d₁, hexpanded, h⟩
  · exact hexpansion.of_error rfl h
  · rw [(BuildPlan.cases_of_compileAndWrite_error h).resolve_left hcause]
    exact hexpansion.of_ok rfl hexpanded

/-- An output carries the label of the unit and the path of its stylesheet. -/
theorem entry_of_step {output : BuiltOutput} (h : u.step b d = .ok output d') :
    output.entry = u.label b ∧ output.cssPath = u.cssPath b := by
  rw [step_eq_bind] at h
  obtain ⟨expanded, d₁, _, h⟩ := exists_of_bind_ok h
  exact BuildPlan.entry_of_compileAndWrite h

theorem attempt_eq (b : BuildPlan) (u : BuildUnit) (d : Disk) :
    u.attempt b d =
      .ok ((resultOf (u.step b) d).mapError (⟨u.label b, ·⟩)) (stateAfter (u.step b) d) := by
  rw [attempt, BuildPlan.attempt, resultOf, stateAfter]
  cases u.step b d <;> rfl

theorem entryOf_attempt {outcome : Except EntryFailure BuiltOutput}
    (h : u.attempt b d = .ok outcome d') :
    BuildReport.entryOf outcome = u.label b := by
  cases outcome with
  | ok output => exact (entry_of_step (step_of_attempt h)).1
  | error failure =>
    rw [attempt, BuildPlan.attempt] at h
    split at h
    · cases h
    · cases h
      rfl

end BuildUnit

/-! ## Builds -/

namespace BuildPlan

variable {b : BuildPlan} {units : List BuildUnit} {report : BuildReport} {d d' : Disk}

theorem map_entryOf_outcomes {outcomes : List (Except EntryFailure BuiltOutput)}
    (h : units.mapM (BuildUnit.attempt b) d = .ok outcomes d') :
    outcomes.map BuildReport.entryOf = units.map (BuildUnit.label b) := by
  have hpairs := forall₂_of_mapM_ok h
  clear h
  induction hpairs with
  | nil => rfl
  | cons hrun _ ih =>
    obtain ⟨before, after, hrun⟩ := hrun
    rw [List.map_cons, List.map_cons, BuildUnit.entryOf_attempt hrun, ih]

/-- The report of a build accounts for its units. -/
theorem accounts_of_build (hunits : b.discover (b.prepared d).tree = .ok units)
    (h : b.build d = .ok report d') : report.Accounts (units.map (BuildUnit.label b)) := by
  obtain ⟨found, outcomes, d₁, hfound, hrun, rfl, _⟩ := exists_of_build h
  obtain rfl := Except.ok.inj (hunits.symm.trans hfound)
  have hempty : BuildReport.empty.Accounts [] := ⟨.refl _, .refl _, .refl _⟩
  rw [← map_entryOf_outcomes hrun]
  exact hempty.foldl_record outcomes

/-- The disk when the first units of a build have run. -/
def afterUnits (b : BuildPlan) (d : Disk) (earlier : List BuildUnit) : Disk :=
  stateAfter (earlier.mapM (BuildUnit.attempt b)) (b.prepared d)

/-- A unit of the build is reported as it fares behind the units in front of it. -/
theorem mem_report_of_build {earlier later : List BuildUnit} {u : BuildUnit}
    (hunits : b.discover (b.prepared d).tree = .ok (earlier ++ u :: later))
    (h : b.build d = .ok report d') :
    (∀ output, resultOf (u.step b) (b.afterUnits d earlier) = .ok output →
      output ∈ report.outputs) ∧
      ∀ cause, resultOf (u.step b) (b.afterUnits d earlier) = .error cause →
        ⟨u.label b, cause⟩ ∈ report.failures := by
  obtain ⟨found, outcomes, d₁, hfound, hrun, rfl, _⟩ := exists_of_build h
  obtain rfl := Except.ok.inj (hunits.symm.trans hfound)
  obtain ⟨outcome, houtcome, after, hattempt⟩ := exists_mem_of_mapM_split hrun
  rw [← afterUnits, BuildUnit.attempt_eq] at hattempt
  cases hattempt
  constructor
  · intro output hstep
    rw [hstep] at houtcome
    rw [BuildReport.outputs_foldl_record]
    exact List.mem_append_right _ (List.mem_filterMap.2 ⟨_, houtcome, rfl⟩)
  · intro cause hstep
    rw [hstep] at houtcome
    exact BuildReport.mem_failures_foldl_record.2 (.inr houtcome)

theorem mem_keys_manifest {key : Text} :
    key ∈ (b.manifest report).keys ↔ ∃ output ∈ report.outputs,
      b.layout.key output.cssPath = key := by
  rw [manifest, Manifest.mem_keys_foldl_insert]
  simp [Manifest.keys, Manifest.empty]

theorem exists_of_mem_manifest {entry : Text × ManifestRecord}
    (h : entry ∈ (b.manifest report).records) :
    ∃ output ∈ report.outputs,
      entry = (b.layout.key output.cssPath, ⟨sourceOf output.entry, output.dependencies⟩) :=
  (Manifest.cases_of_mem_foldl_insert h).resolve_left List.not_mem_nil

theorem sorted_manifest (b : BuildPlan) (report : BuildReport) :
    Json.Sorted (b.manifest report).records :=
  Manifest.sorted_foldl_insert .nil

end BuildPlan

end StyleBundle

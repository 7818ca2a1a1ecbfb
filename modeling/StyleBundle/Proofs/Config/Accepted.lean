import StyleBundle.Config.Load
import StyleBundle.Proofs.Lists
import StyleBundle.Proofs.Path.Absolute

/-!
# Accepted configurations

A configuration that was loaded passed its validation, or it is the default of the working
directory (`Config.load_cases`).  Either way its output directory is not spelled like its root
(`Config.outputDir_ne_root`), and it is absolute if the root is (`Config.isAbsolute_outputDir`).
-/

namespace StyleBundle

namespace Config

variable {tree : FileTree} {env : Environment} {c : Config}

theorem outputDir_ne_root_of_validate (h : c.validate = .ok ()) :
    c.project.outputDir.components ≠ c.project.root.components := by
  intro hsame
  rw [← Path.same_iff] at hsame
  obtain ⟨_, _, h⟩ := bind_eq_ok_iff.1 h
  obtain ⟨_, _, h⟩ := bind_eq_ok_iff.1 h
  simp only [hsame, if_true] at h
  obtain ⟨_, h, _⟩ := bind_eq_ok_iff.1 h
  cases h

/-- The text of a file is parsed, its variables are replaced, and what it says is resolved and
checked. -/
theorem exists_of_ofText {path : Path} {text : Text} (h : ofText env path text = .ok c) :
    ∃ parsed file config, ConfigFile.parse? text = some parsed ∧
    expandFile env parsed = .ok file ∧
      resolveFile file (path.parent?.getD ⟨['.']⟩) = .ok config ∧
      c = { config with configPath := some path } ∧ c.validate = .ok () := by
  rw [ofText] at h
  split at h
  · cases h
  · rename_i parsed hparse
    obtain ⟨file, hfile, h⟩ := bind_eq_ok_iff.1 h
    obtain ⟨config, hconfig, h⟩ := bind_eq_ok_iff.1 h
    obtain ⟨_, hvalid, h⟩ := bind_eq_ok_iff.1 h
    cases h
    exact ⟨parsed, file, config, hparse, hfile, hconfig, rfl, hvalid⟩

/-- The root is seen from the directory of the file, the other directories from the root. -/
theorem of_resolveFile {file : ConfigFile} {directory : Path}
    (h : resolveFile file directory = .ok c) :
    c.file = file ∧
      c.project = projectPaths file.project
        (resolveDir directory (file.project.root.getD ['.'])) ∧
      c.resolve = searchPaths file.resolve c.resolve c.project.root ∧
      readGroups file.entryGroups = .ok c.groups := by
  obtain ⟨_, _, h⟩ := bind_eq_ok_iff.1 h
  obtain ⟨_, _, h⟩ := bind_eq_ok_iff.1 h
  obtain ⟨groups, hgroups, h⟩ := bind_eq_ok_iff.1 h
  obtain ⟨_, _, h⟩ := bind_eq_ok_iff.1 h
  cases h
  exact ⟨rfl, rfl, rfl, hgroups⟩

theorem validate_of_ofText {path : Path} {text : Text} (h : ofText env path text = .ok c) :
    c.validate = .ok () := by
  obtain ⟨_, _, _, _, _, _, _, hvalid⟩ := exists_of_ofText h
  exact hvalid

/-- A configuration comes from the text of a file, or is the default of the working directory. -/
theorem loadBase_cases {path : Option Path} (h : loadBase tree env path = .ok c) :
    (∃ path text, ofText env path text = .ok c) ∨ c = withoutFile tree.workingDirectory.path := by
  have hfile : ∀ p, ofFile tree env p = .ok c → ∃ path text, ofText env path text = .ok c := by
    intro p hp
    rw [ofFile] at hp
    split at hp
    · exact ⟨p, _, hp⟩
    · cases hp
  cases path with
  | some path =>
    rw [loadBase] at h
    split_ifs at h
    exact .inl (hfile path h)
  | none =>
    rw [loadBase] at h
    split at h
    · exact .inl (hfile _ h)
    · cases h
      exact .inr rfl

theorem load_cases {path : Option Path} {overrides : Option Overrides}
    (h : load tree env path overrides = .ok c) :
    c.validate = .ok () ∨ c = withoutFile tree.workingDirectory.path := by
  obtain ⟨base, hbase, h⟩ := bind_eq_ok_iff.1 h
  cases overrides with
  | none =>
    cases h
    exact (loadBase_cases hbase).imp_left fun ⟨_, _, htext⟩ => validate_of_ofText htext
  | some overrides =>
    obtain ⟨_, hvalid, h⟩ := bind_eq_ok_iff.1 h
    cases h
    exact .inl hvalid

/-- The default output directory lies below the root. -/
theorem components_outputDir_withoutFile {base : Path} (hbase : base.isAbsolute = true) :
    (withoutFile base).project.outputDir.components =
      base.components ++ ["public", "assets", "vt", "sprockets"].map fun name =>
        Component.normal name.toList := by
  have hjoin := Path.components_join (q := ⟨defaultOutputDir⟩)
    (Path.text_ne_nil_of_isAbsolute hbase) (by decide)
  have hcurrent : ∀ step ∈ (base.push defaultOutputDir).components,
      decide (step ≠ .current) = true := fun step hstep =>
    decide_eq_true (Path.ne_current_of_isAbsolute (Path.isAbsolute_push hbase _) hstep)
  change (Path.ofComponents ((base.push defaultOutputDir).components.filter _)).components = _
  rw [List.filter_eq_self.2 hcurrent, Path.components_ofComponents_components]
  exact hjoin

theorem outputDir_ne_root {path : Option Path} {overrides : Option Overrides}
    (h : load tree env path overrides = .ok c) :
    c.project.outputDir.components ≠ c.project.root.components := by
  rcases load_cases h with hvalid | rfl
  · exact outputDir_ne_root_of_validate hvalid
  · have habs : tree.workingDirectory.path.isAbsolute = true :=
      Path.isAbsolute_ofComponents_root _
    rw [components_outputDir_withoutFile habs]
    intro hsame
    have hlength := congrArg List.length hsame
    simp [withoutFile, bare, projectPaths] at hlength

/-! ## Absolute directories -/

/-- A resolved directory has the components of its text, seen from the base, without a leading
`.`. -/
theorem components_resolveDir (base : Path) (raw : Text) :
    (resolveDir base raw).components = (base.push raw).components.filter (· ≠ .current) := by
  rw [resolveDir, Path.components_eq (base.push raw), List.filter_append]
  have hsteps : ∀ step ∈ ((base.push raw).text.split '/').filterMap Component.ofPiece?,
      decide (step ≠ .current) = true := by
    intro step hstep
    rcases Path.eq_parent_or_isName hstep with rfl | ⟨name, _, rfl⟩
    · decide
    · simp
  rw [List.filter_eq_self.2 hsteps]
  refine Path.components_ofComponents_append ?_ fun step hstep => Path.eq_parent_or_isName hstep
  rcases Path.lead_cases (base.push raw) with
    ⟨_, _, hlead, _⟩ | ⟨_, _, hlead, _⟩ | ⟨_, _, hlead, _⟩
  · rw [hlead]
    decide
  · rw [hlead]
    decide
  · rw [hlead]
    decide

theorem isAbsolute_resolveDir {base : Path} (h : base.isAbsolute = true) (raw : Text) :
    (resolveDir base raw).isAbsolute = true := by
  have hpush := Path.isAbsolute_push h raw
  rw [resolveDir, Path.components_eq, Path.leadComponents, if_pos hpush, List.singleton_append,
    List.filter_cons_of_pos (by decide)]
  exact Path.isAbsolute_ofComponents_root _

/-- Without the command line, every directory is seen from the root. -/
theorem project_of_ofText {path : Path} {text : Text} (h : ofText env path text = .ok c) :
    c.project = projectPaths c.file.project c.project.root := by
  obtain ⟨_, file, config, _, _, hconfig, rfl, _⟩ := exists_of_ofText h
  obtain ⟨hfile, hproject, _⟩ := of_resolveFile hconfig
  simp only [hfile, hproject]
  rfl

theorem project_of_loadBase {path : Option Path} (h : loadBase tree env path = .ok c) :
    c.project = projectPaths c.file.project c.project.root := by
  rcases loadBase_cases h with ⟨_, _, htext⟩ | rfl
  · exact project_of_ofText htext
  · rfl

/-- Every directory is seen from the root. -/
theorem project_of_load {path : Option Path} {overrides : Option Overrides}
    (h : load tree env path overrides = .ok c) :
    (∃ raw, c.project.stylesDir = resolveDir c.project.root raw) ∧
      ((∃ raw, c.project.outputDir = resolveDir c.project.root raw) ∨
        ∃ p, c.project.outputDir = c.project.root.join p) := by
  obtain ⟨base, hbase, h⟩ := bind_eq_ok_iff.1 h
  have hproject := project_of_loadBase hbase
  have hstyles : ∃ raw, base.project.stylesDir = resolveDir base.project.root raw := by
    rw [hproject]
    exact ⟨_, rfl⟩
  have houtput : ∃ raw, base.project.outputDir = resolveDir base.project.root raw := by
    rw [hproject]
    exact ⟨_, rfl⟩
  cases overrides with
  | none =>
    cases h
    exact ⟨hstyles, .inl houtput⟩
  | some overrides =>
    obtain ⟨_, _, h⟩ := bind_eq_ok_iff.1 h
    cases h
    obtain ⟨root, outputDir, _, _, _⟩ := overrides
    cases root with
    | none =>
      cases outputDir with
      | none => exact ⟨hstyles, .inl houtput⟩
      | some outputDir => exact ⟨hstyles, .inr ⟨outputDir, rfl⟩⟩
    | some root =>
      cases outputDir with
      | none => exact ⟨⟨_, rfl⟩, .inl ⟨_, rfl⟩⟩
      | some outputDir => exact ⟨⟨_, rfl⟩, .inr ⟨outputDir, rfl⟩⟩

theorem isAbsolute_stylesDir {path : Option Path} {overrides : Option Overrides}
    (h : load tree env path overrides = .ok c) (hroot : c.project.root.isAbsolute = true) :
    c.project.stylesDir.isAbsolute = true := by
  obtain ⟨⟨raw, hraw⟩, _⟩ := project_of_load h
  rw [hraw]
  exact isAbsolute_resolveDir hroot raw

theorem isAbsolute_outputDir {path : Option Path} {overrides : Option Overrides}
    (h : load tree env path overrides = .ok c) (hroot : c.project.root.isAbsolute = true) :
    c.project.outputDir.isAbsolute = true := by
  obtain ⟨_, ⟨raw, hraw⟩ | ⟨p, hp⟩⟩ := project_of_load h
  · rw [hraw]
    exact isAbsolute_resolveDir hroot raw
  · rw [hp]
    exact Path.isAbsolute_join hroot p

end Config

end StyleBundle

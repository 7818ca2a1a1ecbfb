import StyleBundle.Proofs.Config.Accepted
import StyleBundle.Proofs.FileTree.Locate
import StyleBundle.Proofs.Path.Dedup
import StyleBundle.Proofs.Resolve.Settings

/-!
# Which configurations are absolute

Every directory of a loaded configuration is seen from its root, so all of them are absolute if
the root is (`Config.isAbsolute_of_mem_directories`).  The root is what the command line says, or
is seen from the directory of the configuration file as the path of that file is spelled.  A file
that was looked for has an absolute path; one that was asked for need not have one.
`Config.Rooted` says which of these inputs give an absolute root, and no others do
(`Config.directories_absolute_iff_rooted`).
-/

namespace StyleBundle

/-- The directory of a file that can be read is absolute if its path is. -/
theorem FileTree.isAbsolute_parent_of_read {tree : FileTree} {p : Path} {text : Text}
    (h : tree.read p = .ok text) : (p.parent?.getD ⟨['.']⟩).isAbsolute = p.isAbsolute := by
  cases hparent : p.parent? with
  | some up => exact Path.isAbsolute_of_parent? hparent
  | none =>
    -- Only the root is absolute and has no parent, and the root is no file.
    have hlead := Path.components_of_parent?_eq_none hparent
    cases habs : p.isAbsolute with
    | false => rfl
    | true =>
      obtain ⟨place, hplace, hnode⟩ := exists_file_of_read h
      have hroot : place = [] := by
        rw [locate_eq_placeOf hplace, hlead, Path.leadComponents, if_pos habs]
        rfl
      have hdir := isDirectoryAt_nil tree
      rw [← hroot, isDirectoryAt, hnode] at hdir
      cases hdir

theorem Settings.Draft.build_of_relative {d : Draft} (h : d.root.isAbsolute = false) :
    d.build = .error (.relativeRoot d.root) := by
  simp only [build, h]
  rfl

/-- An absolute root is never refused. -/
theorem Settings.Draft.build_ne_relativeRoot {d : Draft} (h : d.root.isAbsolute = true)
    (root : Path) :
    d.build ≠ .error (.relativeRoot root) := by
  intro herror
  simp only [build, h, if_true] at herror
  rcases bind_eq_error herror with haliases | ⟨aliases, _, herror⟩
  · obtain ⟨⟨lead, replacement⟩, _, hpair⟩ := exists_of_mapM_eq_error haliases
    simp only at hpair
    split_ifs at hpair
    cases hpair
  · rcases bind_eq_error herror with hmappings | ⟨mappings, _, herror⟩
    · obtain ⟨⟨pattern, target⟩, _, hpair⟩ := exists_of_mapM_eq_error hmappings
      simp only at hpair
      split at hpair
      · cases hpair
      · cases hpair
    · cases herror

namespace Config

variable {tree : FileTree} {env : Environment} {c : Config} {path : Option Path}
  {overrides : Option Overrides}

/-- A directory is absolute if the text is, or the directory that it is seen from. -/
theorem isAbsolute_resolveDir_iff {base : Path} {raw : Text} :
    (resolveDir base raw).isAbsolute = true ↔
      base.isAbsolute = true ∨ (Path.mk raw).isAbsolute = true := by
  have hjoin : (base.push raw).isAbsolute = true ↔
      base.isAbsolute = true ∨ (Path.mk raw).isAbsolute = true := Path.isAbsolute_join_iff
  rw [← hjoin, Path.isAbsolute_iff_mem, Path.isAbsolute_iff_mem, components_resolveDir]
  simp

/-! ## The root -/

/-- The root is seen from the directory of the file, and the search directories from the root. -/
theorem of_ofText {p : Path} {text : Text} (h : ofText env p text = .ok c) :
    c.project.root = resolveDir (p.parent?.getD ⟨['.']⟩) (c.file.project.root.getD ['.']) ∧
      c.resolve = searchPaths c.file.resolve c.resolve c.project.root := by
  obtain ⟨_, file, config, _, _, hconfig, rfl, _⟩ := exists_of_ofText h
  obtain ⟨hfile, hproject, hresolve, _⟩ := of_resolveFile hconfig
  simp only [hfile]
  exact ⟨congrArg ProjectPaths.root hproject, hresolve⟩

/-- The root is absolute if the path of the file is, or the root that the file sets. -/
theorem isAbsolute_root_of_ofFile {p : Path} (h : ofFile tree env p = .ok c) :
    c.project.root.isAbsolute = true ↔
      p.isAbsolute = true ∨ ∃ raw, c.file.project.root = some raw ∧
      (Path.mk raw).isAbsolute = true := by
  rw [ofFile] at h
  split at h
  · rename_i text hread
    rw [(of_ofText h).1, isAbsolute_resolveDir_iff, FileTree.isAbsolute_parent_of_read hread]
    cases hraw : c.file.project.root with
    | some raw => simp
    | none =>
      have hdot : (Path.mk ['.']).isAbsolute = false := by decide
      simp [hdot]
  · cases h

theorem isAbsolute_of_discover? {p : Path} (h : discover? tree = some p) :
    p.isAbsolute = true := by
  obtain ⟨up, hup, rfl⟩ := List.mem_map.1 (List.mem_of_find?_eq_some h)
  have habs : up.isAbsolute = true := by
    rw [Path.isAbsolute_of_mem_ancestors hup]
    exact Path.isAbsolute_ofComponents_root _
  exact Path.isAbsolute_push habs fileName

theorem isAbsolute_root_of_loadBase (h : loadBase tree env path = .ok c) :
    c.project.root.isAbsolute = true ↔
      ∀ p, path = some p → p.isAbsolute = true ∨
        ∃ raw, c.file.project.root = some raw ∧ (Path.mk raw).isAbsolute = true := by
  cases path with
  | some p =>
    rw [loadBase] at h
    split_ifs at h
    rw [isAbsolute_root_of_ofFile h]
    simp
  | none =>
    simp only [reduceCtorEq, false_implies, implies_true, iff_true]
    rw [loadBase] at h
    split at h
    · rename_i p hp
      exact (isAbsolute_root_of_ofFile h).2 (.inl (isAbsolute_of_discover? hp))
    · cases h
      exact Path.isAbsolute_ofComponents_root _

/-- What makes the root absolute.  The root of the command line comes first.  Without it, a
configuration file that was asked for needs an absolute path or sets an absolute root. -/
def Rooted (c : Config) (path : Option Path) (overrides : Option Overrides) : Prop :=
  match overrides.bind Overrides.root with
  | some root => root.isAbsolute = true
  | none =>
    ∀ p, path = some p → p.isAbsolute = true ∨
      ∃ raw, c.file.project.root = some raw ∧ (Path.mk raw).isAbsolute = true

theorem isAbsolute_root_iff (h : load tree env path overrides = .ok c) :
    c.project.root.isAbsolute = true ↔ c.Rooted path overrides := by
  obtain ⟨base, hbase, h⟩ := bind_eq_ok_iff.1 h
  have hroot := isAbsolute_root_of_loadBase hbase
  cases overrides with
  | none =>
    cases h
    exact hroot
  | some overrides =>
    obtain ⟨_, _, h⟩ := bind_eq_ok_iff.1 h
    cases h
    obtain ⟨root, outputDir, _, _, _⟩ := overrides
    cases root with
    | none => exact hroot
    | some root => exact Iff.rfl

/-! ## The other directories -/

/-- The search directories of a loaded configuration are those of its file, seen from its root. -/
theorem resolve_of_load (h : load tree env path overrides = .ok c) :
    c.resolve = searchPaths c.file.resolve c.resolve c.project.root := by
  obtain ⟨base, hbase, h⟩ := bind_eq_ok_iff.1 h
  have hresolve : base.resolve =
      searchPaths base.file.resolve base.resolve base.project.root := by
    rcases loadBase_cases hbase with ⟨_, _, htext⟩ | rfl
    · exact (of_ofText htext).2
    · rfl
  cases overrides with
  | none =>
    cases h
    exact hresolve
  | some overrides =>
    obtain ⟨_, _, h⟩ := bind_eq_ok_iff.1 h
    cases h
    obtain ⟨root, outputDir, _, _, _⟩ := overrides
    cases root with
    | none => exact hresolve
    | some root => rfl

/-- Every directory that a configuration resolves. -/
def directories (c : Config) : List Path :=
  c.project.root :: c.project.stylesDir :: c.project.outputDir ::
    (c.resolve.includePaths ++ c.resolve.fallbackDirs)

theorem isAbsolute_of_mem_directories (h : load tree env path overrides = .ok c)
    (hroot : c.project.root.isAbsolute = true) {p : Path} (hp : p ∈ c.directories) :
    p.isAbsolute = true := by
  rw [directories, resolve_of_load h] at hp
  simp only [List.mem_cons, List.mem_append] at hp
  rcases hp with rfl | rfl | rfl | hp | hp
  · exact hroot
  · exact isAbsolute_stylesDir h hroot
  · exact isAbsolute_outputDir h hroot
  · obtain ⟨raw, _, rfl⟩ := List.mem_map.1 (Path.mem_of_mem_dedup hp)
    exact isAbsolute_resolveDir hroot raw
  · obtain ⟨raw, _, rfl⟩ := List.mem_map.1 hp
    exact isAbsolute_resolveDir hroot raw

/-- All directories of a loaded configuration are absolute exactly when its root is rooted, and
exactly then its settings are not refused for a relative root. -/
theorem directories_absolute_iff_rooted (h : load tree env path overrides = .ok c) :
    ((∀ p ∈ c.directories, p.isAbsolute = true) ↔ c.Rooted path overrides) ∧
      ((∀ root, c.settings ≠ .error (.relativeRoot root)) ↔ c.Rooted path overrides) := by
  rw [← isAbsolute_root_iff h]
  constructor
  · constructor
    · intro hall
      exact hall c.project.root List.mem_cons_self
    · intro hroot p hp
      exact isAbsolute_of_mem_directories h hroot hp
  · constructor
    · intro hnever
      by_contra hroot
      rw [Bool.not_eq_true] at hroot
      exact hnever _ (Settings.Draft.build_of_relative hroot)
    · intro hroot root
      exact Settings.Draft.build_ne_relativeRoot hroot root

/-- A project whose configuration file has the given text. -/
def namedTree (text : Text) : FileTree where
  entries := [(["w".toList], .directory), (["w".toList, fileName], .file (.text text))]
  workingDirectory := ["w".toList]

/-- A configuration that names an absolute root. -/
def namedText : Text :=
  "[project]\nroot = \"/srv\"\n[resolve]\nfallback_dirs = [\"lib\", \"../lib\"]\n".toList

theorem named_absolute :
    ∃ c, load (namedTree namedText) ⟨[], none⟩ (some ⟨fileName⟩) none = .ok c ∧
      c.Rooted (some ⟨fileName⟩) none ∧ c.directories.length = 5 ∧
      (∀ p ∈ c.directories, p.isAbsolute = true) ∧
      ∀ root, c.settings ≠ .error (.relativeRoot root) := by
  obtain ⟨c, hload, hc⟩ :
      ∃ c, load (namedTree namedText) ⟨[], none⟩ (some ⟨fileName⟩) none = .ok c ∧
      decide (c.file.project.root = some "/srv".toList ∧ c.directories.length = 5) = true :=
    exists_ok_of_any (by decide +kernel)
  obtain ⟨hroot, hlength⟩ := of_decide_eq_true hc
  have hrooted : c.Rooted (some ⟨fileName⟩) none := fun _ _ => .inr ⟨_, hroot, by decide⟩
  obtain ⟨hall, hnever⟩ := directories_absolute_iff_rooted hload
  exact ⟨c, hload, hrooted, hlength, hall.2 hrooted, hnever.2 hrooted⟩

/-- A configuration file that was asked for by its bare name has the empty root, and its settings
are refused. -/
theorem named_relative :
    ∃ c, load (namedTree []) ⟨[], none⟩ (some ⟨fileName⟩) none = .ok c ∧
      (∀ p ∈ c.directories, p.isAbsolute = false) ∧ c.settings = .error (.relativeRoot ⟨[]⟩) := by
  obtain ⟨c, hload, hc⟩ : ∃ c, load (namedTree []) ⟨[], none⟩ (some ⟨fileName⟩) none = .ok c ∧
      decide (c.project.root = ⟨[]⟩ ∧ ∀ p ∈ c.directories, p.isAbsolute = false) = true :=
    exists_ok_of_any (by decide +kernel)
  obtain ⟨hroot, hdirs⟩ := of_decide_eq_true hc
  refine ⟨c, hload, hdirs, ?_⟩
  rw [← hroot]
  exact Settings.Draft.build_of_relative (hdirs _ List.mem_cons_self)

end Config

end StyleBundle

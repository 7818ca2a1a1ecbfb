import StyleBundle.Proofs.Config.Accepted
import StyleBundle.Proofs.FileTree.Write
import StyleBundle.Proofs.Toml.Equality

/-!
# Another root

The root of a project can be set in the configuration file or on the command line.  The command
line comes when every path has been resolved against the root of the file, so all that depends on
the root has to be resolved again, from what the file says.  `Config.load_root_as_written` says
that nothing is left over from the first root: the two ways give configurations that resemble each
other.

The root of the file is a text in which variables are replaced, and the path of the command line
is taken as it is.  For an absolute path without a dollar sign this makes no difference
(`Environment.expand_of_plain`).
-/

namespace StyleBundle

/-! ## Plain roots -/

theorem Environment.replaceFrom_of_notMem (env : Environment) {t : Text} (h : '$' ∉ t) :
    env.replaceFrom 0 t = .ok t := by
  induction t with
  | nil => rfl
  | cons c t ih =>
    rw [List.mem_cons, not_or] at h
    rw [replaceFrom, if_neg (Ne.symm h.1), ih h.2]
    rfl

theorem Environment.expand_of_plain (env : Environment) {t : Text} (h : '$' ∉ t)
    (htilde : t.head? ≠ some '~') : env.expand t = .ok t := by
  rw [expand, env.replaceFrom_of_notMem h]
  simp only [htilde, if_false]
  rfl

/-- A path that is joined to another does not see how that one is spelled. -/
theorem Path.components_join_congr {p p' : Path} (hp : p.isAbsolute = true)
    (h : p.components = p'.components) (q : Path) :
    (p.join q).components = (p'.join q).components := by
  cases hq : q.isAbsolute with
  | true => rw [join, if_pos hq, join, if_pos hq]
  | false =>
    have hp' : p'.isAbsolute = true := by rw [← isAbsolute_congr h, hp]
    rw [components_join (text_ne_nil_of_isAbsolute hp) hq,
      components_join (text_ne_nil_of_isAbsolute hp') hq, h]

/-! ## A root that is set in the file -/

namespace ConfigFile

/-- The file with another root. -/
def withRoot (file : ConfigFile) (root : Text) : ConfigFile :=
  { file with project := { file.project with root := some root } }

/-- The settings in the section `project` of a document. -/
def projectSettings? (document : List (Text × Toml)) : Option (List (Text × Toml)) :=
  settings? ["root", "styles_dir", "output_dir"] (valueOf? document "project")

/-- The second document sets the root, and apart from that it says what the first one says.  The
order of the sections and of the settings of a project is free. -/
structure SetsRoot (root : Text) (document document' : List (Text × Toml)) : Prop where
  sections : ∀ name ∈ sectionNames, name ≠ "project" →
    valueOf? document' name = valueOf? document name
  root : ∀ entries ∈ projectSettings? document', valueOf? entries "root" = some (.string root)
  settings : ∀ entries ∈ projectSettings? document, ∀ entries' ∈ projectSettings? document',
    ∀ name ∈ ["styles_dir", "output_dir"], valueOf? entries' name = valueOf? entries name

theorem project?_of_setsRoot {root : Text} {document document' : List (Text × Toml)}
    {written written' : ProjectSection} (h : SetsRoot root document document')
    (hwritten : project? (valueOf? document "project") = some written)
    (hwritten' : project? (valueOf? document' "project") = some written') :
    written' = { written with root := some root } := by
  obtain ⟨entries, hentries, hwritten⟩ := Option.bind_eq_some_iff.1 hwritten
  obtain ⟨_, _, hwritten⟩ := Option.bind_eq_some_iff.1 hwritten
  obtain ⟨stylesDir, hstyles, hwritten⟩ := Option.bind_eq_some_iff.1 hwritten
  obtain ⟨outputDir, houtput, hwritten⟩ := Option.bind_eq_some_iff.1 hwritten
  obtain ⟨entries', hentries', hwritten'⟩ := Option.bind_eq_some_iff.1 hwritten'
  obtain ⟨root', hroot', hwritten'⟩ := Option.bind_eq_some_iff.1 hwritten'
  obtain ⟨stylesDir', hstyles', hwritten'⟩ := Option.bind_eq_some_iff.1 hwritten'
  obtain ⟨outputDir', houtput', hwritten'⟩ := Option.bind_eq_some_iff.1 hwritten'
  rw [setting?, h.root entries' hentries'] at hroot'
  rw [setting?, h.settings entries hentries entries' hentries' "styles_dir" (by simp), ← setting?,
    hstyles] at hstyles'
  rw [setting?, h.settings entries hentries entries' hentries' "output_dir" (by simp), ← setting?,
    houtput] at houtput'
  cases hroot'
  cases hstyles'
  cases houtput'
  cases hwritten
  cases hwritten'
  rfl

/-- Each section of a file is read from the value under its name. -/
theorem sections_of_ofDocument? {document : List (Text × Toml)} {file : ConfigFile}
    (h : ofDocument? document = some file) :
    project? (valueOf? document "project") = some file.project ∧
      resolve? (valueOf? document "resolve") = some file.resolve ∧
      table? (valueOf? document "aliases") = some file.aliases ∧
      table? (valueOf? document "file_mapping") = some file.fileMapping ∧
      table? (valueOf? document "entry_groups") = some file.entryGroups ∧
      compiler? (valueOf? document "compiler") = some file.compiler := by
  obtain ⟨entries, hentries, h⟩ := Option.bind_eq_some_iff.1 h
  rw [settings?] at hentries
  split_ifs at hentries
  cases hentries
  obtain ⟨_, hproject, h⟩ := Option.bind_eq_some_iff.1 h
  obtain ⟨_, hresolve, h⟩ := Option.bind_eq_some_iff.1 h
  obtain ⟨_, haliases, h⟩ := Option.bind_eq_some_iff.1 h
  obtain ⟨_, hmapping, h⟩ := Option.bind_eq_some_iff.1 h
  obtain ⟨_, hgroups, h⟩ := Option.bind_eq_some_iff.1 h
  obtain ⟨_, hcompiler, h⟩ := Option.bind_eq_some_iff.1 h
  cases h
  exact ⟨hproject, hresolve, haliases, hmapping, hgroups, hcompiler⟩

theorem ofDocument?_of_setsRoot {root : Text} {document document' : List (Text × Toml)}
    {file file' : ConfigFile} (h : SetsRoot root document document')
    (hfile : ofDocument? document = some file) (hfile' : ofDocument? document' = some file') :
    file' = file.withRoot root := by
  obtain ⟨hproject, hresolve, haliases, hmapping, hgroups, hcompiler⟩ :=
    sections_of_ofDocument? hfile
  obtain ⟨hproject', hresolve', haliases', hmapping', hgroups', hcompiler'⟩ :=
    sections_of_ofDocument? hfile'
  rw [h.sections "resolve" (by decide) (by decide), hresolve, Option.some.injEq] at hresolve'
  rw [h.sections "aliases" (by decide) (by decide), haliases, Option.some.injEq] at haliases'
  rw [h.sections "file_mapping" (by decide) (by decide), hmapping, Option.some.injEq] at hmapping'
  rw [h.sections "entry_groups" (by decide) (by decide), hgroups, Option.some.injEq] at hgroups'
  rw [h.sections "compiler" (by decide) (by decide), hcompiler, Option.some.injEq] at hcompiler'
  rw [withRoot, ← project?_of_setsRoot h hproject hproject', hresolve', haliases',
    hmapping', hgroups', hcompiler']

end ConfigFile

namespace Config

open ConfigFile (withRoot)

variable {env : Environment} {file expanded : ConfigFile} {root : Path} {c c' : Config}

/-- A plain absolute root is left alone when variables are replaced. -/
theorem expandFile_withRoot (hroot : root.isAbsolute = true) (hplain : '$' ∉ root.text)
    (h : expandFile env file = .ok expanded) :
    expandFile env (withRoot file root.text) = .ok (withRoot expanded root.text) := by
  have hexpand : expandSetting env "project.root" (some root.text) = .ok (some root.text) := by
    have htilde : root.text.head? ≠ some '~' := by
      rw [Path.isAbsolute, beq_iff_eq] at hroot
      rw [hroot]
      decide
    rw [expandSetting, expandText, env.expand_of_plain hplain htilde]
    rfl
  obtain ⟨_, _, h⟩ := bind_eq_ok_iff.1 h
  obtain ⟨_, hstyles, h⟩ := bind_eq_ok_iff.1 h
  obtain ⟨_, houtput, h⟩ := bind_eq_ok_iff.1 h
  obtain ⟨_, hinclude, h⟩ := bind_eq_ok_iff.1 h
  obtain ⟨_, hfallback, h⟩ := bind_eq_ok_iff.1 h
  obtain ⟨_, hbinary, h⟩ := bind_eq_ok_iff.1 h
  cases h
  exact bind_eq_ok_iff.2 ⟨_, hexpand, bind_eq_ok_iff.2 ⟨_, hstyles, bind_eq_ok_iff.2 ⟨_, houtput,
    bind_eq_ok_iff.2 ⟨_, hinclude, bind_eq_ok_iff.2 ⟨_, hfallback, bind_eq_ok_iff.2 ⟨_, hbinary,
      rfl⟩⟩⟩⟩⟩⟩

/-- Setting the root in a file is resolving its configuration against the new root. -/
theorem resolveFile_withRoot {directory : Path} (raw : Text)
    (h : resolveFile file directory = .ok c) :
    resolveFile (withRoot file raw) directory =
      .ok { c.rebase (resolveDir directory raw) with file := withRoot file raw } := by
  obtain ⟨_, haliases, h⟩ := bind_eq_ok_iff.1 h
  obtain ⟨_, hmappings, h⟩ := bind_eq_ok_iff.1 h
  obtain ⟨_, hgroups, h⟩ := bind_eq_ok_iff.1 h
  obtain ⟨_, hbackend, h⟩ := bind_eq_ok_iff.1 h
  cases h
  exact bind_eq_ok_iff.2 ⟨_, haliases,
    bind_eq_ok_iff.2 ⟨_, hmappings, bind_eq_ok_iff.2 ⟨_, hgroups,
    bind_eq_ok_iff.2 ⟨_, hbackend, rfl⟩⟩⟩⟩

/-- The text of a file that sets the root is resolved against that root. -/
theorem ofText_of_setsRoot {p : Path} {text text' : Text}
    {document document' : List (Text × Toml)} (hroot : root.isAbsolute = true)
    (hplain : '$' ∉ root.text) (hdocument : Toml.parse? text = some document)
    (hdocument' : Toml.parse? text' = some document')
    (hsets : ConfigFile.SetsRoot root.text document document') (h : ofText env p text = .ok c)
    (h' : ofText env p text' = .ok c') :
    ∃ file,
      c' = { c.rebase (resolveDir (p.parent?.getD ⟨['.']⟩) root.text) with file := file } := by
  obtain ⟨parsed, file, base, hparse, hexpand, hresolve, rfl, -⟩ := exists_of_ofText h
  obtain ⟨parsed', file', base', hparse', hexpand', hresolve', rfl, -⟩ := exists_of_ofText h'
  rw [ConfigFile.parse?, hdocument] at hparse
  rw [ConfigFile.parse?, hdocument'] at hparse'
  obtain rfl := ConfigFile.ofDocument?_of_setsRoot hsets hparse hparse'
  rw [expandFile_withRoot hroot hplain hexpand] at hexpand'
  cases hexpand'
  rw [resolveFile_withRoot root.text hresolve] at hresolve'
  cases hresolve'
  exact ⟨_, rfl⟩

/-! ## Roots with the same components -/

/-- Two configurations with the same resolved settings, paths being compared by their
components. -/
structure Resembles (c c' : Config) : Prop where
  root : c.project.root.same c'.project.root = true
  stylesDir : c.project.stylesDir.same c'.project.stylesDir = true
  outputDir : c.project.outputDir.same c'.project.outputDir = true
  includePaths : List.Forall₂ (fun p q => p.same q = true) c.resolve.includePaths
    c'.resolve.includePaths
  fallbackDirs : List.Forall₂ (fun p q => p.same q = true) c.resolve.fallbackDirs
    c'.resolve.fallbackDirs
  ignorePartials : c.resolve.ignorePartials = c'.resolve.ignorePartials
  aliases : c.resolve.aliases = c'.resolve.aliases
  mappings : c.resolve.mappings = c'.resolve.mappings
  groups : c.groups = c'.groups
  compiler : c.compiler = c'.compiler
  configPath : c.configPath = c'.configPath

theorem resolveDir_congr {base base' : Path} (hbase : base.isAbsolute = true)
    (h : base.components = base'.components) : resolveDir base = resolveDir base' := by
  funext raw
  rw [resolveDir, resolveDir, Path.push, Path.push, Path.components_join_congr hbase h]

theorem resembles_rebase {root' : Path} (hroot : root.isAbsolute = true)
    (h : root.components = root'.components) (c : Config) (file : ConfigFile) :
    (c.rebase root).Resembles { c.rebase root' with file := file } := by
  have hsame (paths : List Path) : List.Forall₂ (fun p q => p.same q = true) paths paths :=
    List.forall₂_same.2 fun p _ => Path.same_iff.2 rfl
  have hdir := resolveDir_congr hroot h
  constructor
  case root => exact Path.same_iff.2 h
  case stylesDir => exact Path.same_iff.2 (by simp only [rebase, projectPaths, hdir])
  case outputDir => exact Path.same_iff.2 (by simp only [rebase, projectPaths, hdir])
  case includePaths =>
    simp only [rebase, searchPaths, hdir]
    exact hsame _
  case fallbackDirs =>
    simp only [rebase, searchPaths, hdir]
    exact hsame _
  all_goals rfl

/-- The rest of the command line keeps the resemblance. -/
theorem Resembles.override (h : c.Resembles c') (hroot : c.project.root.isAbsolute = true)
    (o : Overrides) :
    (c.override { o with root := none }).Resembles (c'.override { o with root := none }) := by
  constructor
  case outputDir =>
    simp only [Config.override]
    cases o.outputDir with
    | none => exact h.outputDir
    | some outputDir =>
      exact Path.same_iff.2 (Path.components_join_congr hroot (Path.same_iff.1 h.root) outputDir)
  case compiler => simp only [Config.override, h.compiler]
  case root => exact h.root
  case stylesDir => exact h.stylesDir
  case includePaths => exact h.includePaths
  case fallbackDirs => exact h.fallbackDirs
  case ignorePartials => exact h.ignorePartials
  case aliases => exact h.aliases
  case mappings => exact h.mappings
  case groups => exact h.groups
  case configPath => exact h.configPath

end Config

/-! ## The file that is edited -/

namespace FileTree

variable {t t' : FileTree} {p : Path}

theorem Extends.hasEntry (h : Extends t t') (hp : t.hasEntry p = true) :
    t'.hasEntry p = true := by
  rw [FileTree.hasEntry] at hp
  split at hp
  · rename_i node hlookup
    obtain ⟨place, hplace, hnode⟩ := exists_place_of_lookup hlookup
    obtain ⟨node', hnode'⟩ : ∃ node', t'.node? place = some node' := by
      rw [← Option.ne_none_iff_exists']
      intro hnone
      rw [h.entries place hnone] at hnode
      cases hnode
    rw [FileTree.hasEntry, lookup_of_locate (h.locate hplace) hnode']
  · cases hp

/-- Writing over a file makes no entry and removes none. -/
theorem hasEntry_write {text text' : Text} (hread : t.read p = .ok text)
    (h : write p (.text text') t = .ok () t') :
    t'.workingDirectory = t.workingDirectory ∧ t'.hasEntry = t.hasEntry := by
  obtain ⟨place, hplace, hnode⟩ := exists_file_of_read hread
  have hfile : t.isDirectoryAt place = false := by
    rw [isDirectoryAt, hnode]
    rfl
  rw [write] at h
  cases hwrite : t.writePlace p with
  | error cause =>
    rw [hwrite] at h
    cases h
  | ok written =>
    rw [hwrite] at h
    cases h
    obtain ⟨hne, hsame, -, -⟩ := writePlace_eq hwrite
    obtain rfl : written = place := by rw [hsame, locate_eq_placeOf hplace]
    refine ⟨rfl, funext fun q => ?_⟩
    have hextends : Extends t (t.set written (.file (.text text'))) :=
      extends_set hne fun hdir => by rw [hfile] at hdir; cases hdir
    have hback : Extends (t.set written (.file (.text text'))) t := by
      refine ⟨rfl, fun other hother => ?_, fun other hother => ?_⟩
      · rw [node?_set hne]
        split_ifs with heq
        · rw [heq, hnode] at hother
          cases hother
        · exact hother
      · rw [isDirectoryAt, node?_set hne] at hother
        split_ifs at hother
        · cases hother
        · exact hother
    exact Bool.eq_iff_iff.2 ⟨hback.hasEntry, hextends.hasEntry⟩

end FileTree

namespace Config

variable {tree tree' : FileTree} {env : Environment} {path : Option Path} {root : Path}
  {o : Overrides} {c c' : Config}

/-- The second tree is the first one, but in its configuration file the root is set. -/
inductive RootWritten (root : Path) (path : Option Path) (tree tree' : FileTree) : Prop
  | intro (p : Path) (text text' : Text) (document document' : List (Text × Toml))
      (source : path.or (discover? tree) = some p) (read : tree.read p = .ok text)
      (write : FileTree.write p (.text text') tree = .ok () tree')
      (parse : Toml.parse? text = some document) (parse' : Toml.parse? text' = some document')
      (sets : ConfigFile.SetsRoot root.text document document')

theorem ofText_of_loadBase {p : Path} {text : Text} (hsource : path.or (discover? tree) = some p)
    (hread : tree.read p = .ok text) (h : loadBase tree env path = .ok c) :
    ofText env p text = .ok c := by
  cases path with
  | some path =>
    cases hsource
    rw [loadBase] at h
    split_ifs at h
    rwa [ofFile, hread] at h
  | none =>
    rw [Option.none_or] at hsource
    rw [loadBase, hsource] at h
    simp only [ofFile, hread] at h
    exact h

theorem exists_of_load (h : load tree env path (some o) = .ok c) :
    ∃ base, loadBase tree env path = .ok base ∧ c = base.override o := by
  obtain ⟨base, hbase, h⟩ := bind_eq_ok_iff.1 h
  obtain ⟨_, _, h⟩ := bind_eq_ok_iff.1 h
  cases h
  exact ⟨base, hbase, rfl⟩

/-- A root of the command line counts like a root that is written in the file. -/
theorem load_root_as_written (hroot : root.isAbsolute = true) (hplain : '$' ∉ root.text)
    (hwritten : RootWritten root path tree tree')
    (h : load tree env path (some { o with root := some root }) = .ok c)
    (h' : load tree' env path (some { o with root := none }) = .ok c') : c.Resembles c' := by
  obtain ⟨p, text, text', document, document', hsource, hread, hwrite, hparse, hparse', hsets⟩ :=
    hwritten
  obtain ⟨base, hbase, rfl⟩ := exists_of_load h
  obtain ⟨base', hbase', rfl⟩ := exists_of_load h'
  -- The same file is found in both trees, and in the second one it has the other text.
  obtain ⟨hworking, hentry⟩ := FileTree.hasEntry_write hread hwrite
  have hsource' : path.or (discover? tree') = some p := by
    rw [discover?, hworking, hentry]
    exact hsource
  have hread' : tree'.read p = .ok text' := by
    rw [FileTree.read, FileTree.lookup_write hwrite]
    rfl
  obtain ⟨file, rfl⟩ := ofText_of_setsRoot hroot hplain hparse hparse' hsets
    (ofText_of_loadBase hsource hread hbase) (ofText_of_loadBase hsource' hread' hbase')
  -- The command line resolves against the path as it is given, the file against its clean form.
  have hclean : (resolveDir (p.parent?.getD ⟨['.']⟩) root.text).components = root.components := by
    rw [components_resolveDir, Path.push, Path.join, if_pos hroot]
    exact List.filter_eq_self.2 fun step hstep =>
      decide_eq_true (Path.ne_current_of_isAbsolute hroot hstep)
  exact (resembles_rebase hroot hclean.symm base file).override hroot o

/-! ### A project that is moved -/

/-- A project whose configuration file has the given text. -/
def movedTree (text : Text) : FileTree where
  entries := [(["w".toList], .directory), (["w".toList, fileName], .file (.text text))]
  workingDirectory := ["w".toList]

/-- The root, with steps that do not count. -/
def movedRoot : Path := ⟨"/srv/./www/".toList⟩

/-- A setting that is resolved against the root. -/
def movedLibraries : Text :=
  "[resolve]\ninclude_paths = [\"lib\", \"./lib\"]\n".toList

/-- The root comes from a variable. -/
def movedText : Text :=
  "[project]\nroot = \"$SITE\"\nstyles_dir = \"css\"\n".toList ++ movedLibraries

/-- The root is written out, and the settings stand in another order. -/
def movedText' : Text :=
  movedLibraries ++ "[project]\nstyles_dir = \"css\"\nroot = \"/srv/./www/\"\n".toList

/-- Settings of the command line, with or without a root. -/
def movedOverrides (root : Option Path) : Overrides where
  root := root
  outputDir := some ⟨"dist".toList⟩
  sassBinary := none
  sourceMap := none
  backend := some .passthrough

theorem moved_written :
    RootWritten movedRoot none (movedTree movedText) (movedTree movedText') := by
  have hparse : Toml.parse? movedText = some
      [("project".toList, .table [("root".toList, .string "$SITE".toList),
        ("styles_dir".toList, .string "css".toList)]),
      ("resolve".toList, .table [("include_paths".toList,
        .array [.string "lib".toList, .string "./lib".toList])])] := by
    decide +kernel
  have hparse' : Toml.parse? movedText' = some
      [("resolve".toList, .table [("include_paths".toList,
        .array [.string "lib".toList, .string "./lib".toList])]),
      ("project".toList, .table [("styles_dir".toList, .string "css".toList),
        ("root".toList, .string "/srv/./www/".toList)])] := by
    decide +kernel
  refine .intro ⟨"/w/sprocket.toml".toList⟩ movedText movedText' _ _ rfl rfl rfl hparse hparse' ?_
  constructor
  case sections =>
    intro name hname hne
    simp only [ConfigFile.sectionNames, List.mem_cons, List.not_mem_nil, or_false] at hname
    rcases hname with rfl | rfl | rfl | rfl | rfl | rfl
    · exact absurd rfl hne
    all_goals decide +kernel
  case root =>
    intro entries hentries
    cases hentries
    rfl
  case settings =>
    intro entries hentries entries' hentries' name hname
    cases hentries
    cases hentries'
    simp only [List.mem_cons, List.not_mem_nil, or_false] at hname
    rcases hname with rfl | rfl <;> rfl

/-- The variable leads to another root. -/
def movedEnvironment : Environment := ⟨[("SITE".toList, "/old".toList)], none⟩

/-- Nothing is left of the root that the variable gives. -/
theorem moved_resembles :
    ∃ c c', load (movedTree movedText) movedEnvironment none
      (some (movedOverrides (some movedRoot))) =
        .ok c ∧
      load (movedTree movedText') movedEnvironment none (some (movedOverrides none)) = .ok c' ∧
      c.project.stylesDir = ⟨"/srv/www/css".toList⟩ ∧
      c.project.outputDir = ⟨"/srv/./www/dist".toList⟩ ∧
      c.resolve.includePaths = [⟨"/srv/www/lib".toList⟩] ∧ c.Resembles c' := by
  obtain ⟨c, hload, hc⟩ : ∃ c,
      load (movedTree movedText) movedEnvironment none
        (some (movedOverrides (some movedRoot))) = .ok c ∧
        decide (c.project.stylesDir = ⟨"/srv/www/css".toList⟩ ∧
          c.project.outputDir = ⟨"/srv/./www/dist".toList⟩ ∧
          c.resolve.includePaths = [⟨"/srv/www/lib".toList⟩]) = true :=
    exists_ok_of_any (by decide +kernel)
  obtain ⟨c', hload', -⟩ : ∃ c',
      load (movedTree movedText') movedEnvironment none (some (movedOverrides none)) = .ok c' ∧
        true = true :=
    exists_ok_of_any (by decide +kernel)
  obtain ⟨hstyles, houtput, hinclude⟩ := of_decide_eq_true hc
  have hresembles := load_root_as_written (o := movedOverrides none) (by decide)
    (by decide) moved_written hload hload'
  exact ⟨c, c', hload, hload', hstyles, houtput, hinclude, hresembles⟩

end Config

end StyleBundle

import StyleBundle.Config.Error
import StyleBundle.Config.Section
import StyleBundle.Resolve.Settings

/-!
# Configurations

A configuration with every path resolved.  The root is resolved against the directory of the
configuration file, everything else against the root.

* `Config.resolveFile` turns the sections of a file into a configuration.
* `Config.validate` refuses settings that make no sense.
* `Config.override` puts the settings of the command line on top.
-/

namespace StyleBundle

/-- The directories of a project. -/
structure ProjectPaths where
  /-- The root directory. -/
  root : Path
  /-- The directory of the stylesheets. -/
  stylesDir : Path
  /-- The directory that is written to. -/
  outputDir : Path
deriving DecidableEq

/-- How imports are resolved. -/
structure ResolveOptions where
  /-- The directories searched after the current one. -/
  includePaths : List Path
  /-- The directories searched last. -/
  fallbackDirs : List Path
  /-- Whether partials are left out as entries. -/
  ignorePartials : Bool
  /-- Starts of imports with their replacements. -/
  aliases : List (Text × Text)
  /-- Patterns of imports with their files. -/
  mappings : List (Text × Text)
deriving DecidableEq

/-- Stylesheets that are built into one. -/
structure EntryGroup where
  /-- The name of the group. -/
  name : Text
  /-- Glob patterns of its members. -/
  patterns : List Text
deriving DecidableEq

/-- How stylesheets are compiled. -/
structure CompilerOptions where
  /-- The backend. -/
  backend : Backend
  /-- The Sass program. -/
  sassBinary : Text
  /-- The name of the output style. -/
  style : Text
  /-- Whether source maps are written. -/
  sourceMap : Bool
  /-- The mixins in front of every stylesheet. -/
  globalMixins : List Text
  /-- Whether the input of the compiler is written too. -/
  preserveIntermediate : Bool
deriving DecidableEq

namespace CompilerOptions

/-- The options when nothing is said. -/
def default : CompilerOptions where
  backend := .sass
  sassBinary := "sass".toList
  style := OutputStyle.expanded.name
  sourceMap := true
  globalMixins := []
  preserveIntermediate := false

end CompilerOptions

/-- A configuration. -/
structure Config where
  /-- The sections of the file, variables replaced. -/
  file : ConfigFile
  /-- The directories. -/
  project : ProjectPaths
  /-- How imports are resolved. -/
  resolve : ResolveOptions
  /-- The entry groups. -/
  groups : List EntryGroup
  /-- How stylesheets are compiled. -/
  compiler : CompilerOptions
  /-- The file that the configuration comes from. -/
  configPath : Option Path

/-- Settings of the command line. -/
structure Overrides where
  /-- Another root. -/
  root : Option Path
  /-- Another output directory. -/
  outputDir : Option Path
  /-- Another Sass program. -/
  sassBinary : Option Text
  /-- Whether source maps are written. -/
  sourceMap : Option Bool
  /-- Another backend. -/
  backend : Option Backend
deriving DecidableEq

namespace Config

/-- The name of a configuration file. -/
def fileName : Text := "sprocket.toml".toList

/-- The directory of the stylesheets when nothing is said. -/
def defaultStylesDir : Text := "app/assets/stylesheets".toList

/-- The output directory when nothing is said. -/
def defaultOutputDir : Text := "public/assets/vt/sprockets".toList

/-- A path text as seen from `base`, in clean form without `.`. -/
def resolveDir (base : Path) (raw : Text) : Path :=
  Path.ofComponents ((base.push raw).components.filter (· ≠ .current))

/-- The directories of a project with the given root. -/
def projectPaths (raw : ProjectSection) (root : Path) : ProjectPaths where
  root := root
  stylesDir := resolveDir root (raw.stylesDir.getD defaultStylesDir)
  outputDir := resolveDir root (raw.outputDir.getD defaultOutputDir)

/-- The options with the search directories of a project with the given root. -/
def searchPaths (raw : ResolveSection) (options : ResolveOptions) (root : Path) :
    ResolveOptions :=
  { options with
    includePaths := Path.dedup ((raw.includePaths.getD []).map (resolveDir root))
    fallbackDirs := (raw.fallbackDirs.getD []).map (resolveDir root)
    ignorePartials := raw.ignorePartials.getD true }

/-- The configuration with every path resolved against another root. -/
def rebase (c : Config) (root : Path) : Config :=
  { c with
    project := projectPaths c.file.project root
    resolve := searchPaths c.file.resolve c.resolve root }

/-- The configuration of a file with resolved paths and nothing else. -/
def bare (file : ConfigFile) (root : Path) : Config :=
  let options : ResolveOptions := ⟨[], [], true, [], []⟩
  { file := file
    project := projectPaths file.project root
    resolve := searchPaths file.resolve options root
    groups := []
    compiler := .default
    configPath := none }

/-- The configuration when there is no file. -/
def withoutFile (base : Path) : Config :=
  bare .empty base

/-! ## Sections with free names -/

/-- The entries of a section as texts. -/
def textEntries (sectionName : Text) (entries : List (Text × Toml)) :
    Except ConfigError (List (Text × Text)) :=
  entries.mapM fun (key, value) =>
    match value with
    | .string t => .ok (key, t)
    | _ => .error (.invalid (.notText sectionName key))

/-- The entry groups of a section. -/
def readGroups (entries : List (Text × Toml)) : Except ConfigError (List EntryGroup) :=
  entries.mapM fun (name, value) =>
    match ConfigFile.texts? value with
    | some patterns => .ok ⟨name, patterns⟩
    | none => .error (.invalid (.notTexts name))

/-- The backend of a section. -/
def readBackend (name : Option Text) : Except ConfigError Backend :=
  match name with
  | none => .ok CompilerOptions.default.backend
  | some name =>
    match Backend.ofName? name with
    | some backend => .ok backend
    | none => .error (.invalid (.unknownBackend name))

/-- The compiler options of a section. -/
def compilerOptions (raw : CompilerSection) (backend : Backend) : CompilerOptions :=
  let default := CompilerOptions.default
  { backend := backend
    sassBinary := raw.sassBinary.getD default.sassBinary
    style := raw.style.getD default.style
    sourceMap := raw.sourceMap.getD default.sourceMap
    globalMixins := raw.globalMixins.getD default.globalMixins
    preserveIntermediate := raw.preserveIntermediate.getD default.preserveIntermediate }

/-- The configuration of a file in the given directory. -/
def resolveFile (file : ConfigFile) (directory : Path) : Except ConfigError Config := do
  let config := bare file (resolveDir directory (file.project.root.getD ['.']))
  let aliases ← textEntries "aliases".toList file.aliases
  let mappings ← textEntries "file_mapping".toList file.fileMapping
  let groups ← readGroups file.entryGroups
  let backend ← readBackend file.compiler.backend
  return { config with
    resolve := { config.resolve with aliases := aliases, mappings := mappings }
    groups := groups
    compiler := compilerOptions file.compiler backend }

/-! ## Validation -/

/-- Refuses an empty setting. -/
def requireText (field : Text) (value : Text) : Except ConfigError Unit :=
  if value = [] then .error (.invalid (.emptySetting field)) else .ok ()

/-- Refuses an empty setting, if it is there. -/
def requireTextIfGiven (field : String) : Option Text → Except ConfigError Unit
  | none => .ok ()
  | some value => requireText field.toList value

/-- Refuses settings that make no sense. -/
def validate (c : Config) : Except ConfigError Unit := do
  requireTextIfGiven "project.styles_dir" c.file.project.stylesDir
  requireTextIfGiven "project.output_dir" c.file.project.outputDir
  if c.project.outputDir.same c.project.root then
    throw (.invalid .outputIsRoot)
  c.resolve.aliases.forM fun (lead, _) => requireText "aliases key".toList lead
  c.resolve.mappings.forM fun (pattern, target) => do
    requireText "file_mapping key".toList pattern
    requireText ("file_mapping.".toList ++ pattern) target
  requireText "compiler.sass_binary".toList c.compiler.sassBinary
  if (OutputStyle.ofName? c.compiler.style).isNone then
    throw (.invalid (.unknownStyle c.compiler.style))

/-! ## The command line -/

/-- The configuration with the settings of the command line. -/
def override (c : Config) (o : Overrides) : Config :=
  let c :=
    match o.root with
    | some root => c.rebase root
    | none => c
  let outputDir :=
    match o.outputDir with
    | some outputDir => c.project.root.join outputDir
    | none => c.project.outputDir
  { c with
    project := { c.project with outputDir := outputDir }
    compiler := { c.compiler with
      sassBinary := o.sassBinary.getD c.compiler.sassBinary
      sourceMap := o.sourceMap.getD c.compiler.sourceMap
      backend := o.backend.getD c.compiler.backend } }

/-! ## Resolution -/

/-- What the configuration asks of resolution. -/
def draft (c : Config) : Settings.Draft where
  root := c.project.root
  includePaths := c.resolve.includePaths
  fallbackDirs := c.resolve.fallbackDirs
  aliases := c.resolve.aliases
  mappings := c.resolve.mappings
  ignorePartials := c.resolve.ignorePartials

/-- The resolution settings of the configuration. -/
def settings (c : Config) : Except SettingsError Settings :=
  c.draft.build

end Config

end StyleBundle

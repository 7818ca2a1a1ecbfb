import StyleBundle.Config.Basic
import StyleBundle.Config.Environment
import StyleBundle.FileTree.Basic

/-!
# Loading a configuration

The configuration file is the one that was asked for, or the nearest one in the working directory
and above it.  Variables are replaced in the settings that are paths.  Without a file the
configuration is made of defaults for the working directory.
-/

namespace StyleBundle

namespace Config

/-- Replaces the variables of a setting. -/
def expandText (env : Environment) (field value : Text) : Except ConfigError Text :=
  match env.expand value with
  | .ok expanded => .ok expanded
  | .error name => .error (.unsetVariable field name)

/-- Replaces the variables of a setting, if it is there. -/
def expandSetting (env : Environment) (field : String) :
    Option Text → Except ConfigError (Option Text)
  | none => .ok none
  | some value => (expandText env field.toList value).map some

/-- Replaces the variables of the entries of a list, which count from `index`. -/
def expandEntries (env : Environment) (field : Text) (index : Nat) :
    List Text → Except ConfigError (List Text)
  | [] => .ok []
  | value :: rest => do
    let first ← expandText env (field ++ '[' :: Text.ofNat index ++ [']']) value
    let more ← expandEntries env field (index + 1) rest
    return first :: more

/-- Replaces the variables of a list, if it is there. -/
def expandList (env : Environment) (field : String) :
    Option (List Text) → Except ConfigError (Option (List Text))
  | none => .ok none
  | some values => (expandEntries env field.toList 0 values).map some

/-- Replaces the variables of the settings that are paths. -/
def expandFile (env : Environment) (file : ConfigFile) : Except ConfigError ConfigFile := do
  let root ← expandSetting env "project.root" file.project.root
  let stylesDir ← expandSetting env "project.styles_dir" file.project.stylesDir
  let outputDir ← expandSetting env "project.output_dir" file.project.outputDir
  let includePaths ← expandList env "resolve.include_paths" file.resolve.includePaths
  let fallbackDirs ← expandList env "resolve.fallback_dirs" file.resolve.fallbackDirs
  let sassBinary ← expandSetting env "compiler.sass_binary" file.compiler.sassBinary
  return { file with
    project := ⟨root, stylesDir, outputDir⟩
    resolve := { file.resolve with includePaths := includePaths, fallbackDirs := fallbackDirs }
    compiler := { file.compiler with sassBinary := sassBinary } }

/-- The configuration that the text of a file at `path` gives. -/
def ofText (env : Environment) (path : Path) (text : Text) : Except ConfigError Config := do
  match ConfigFile.parse? text with
  | none => throw .malformed
  | some file =>
    let file ← expandFile env file
    let config ← resolveFile file (path.parent?.getD ⟨['.']⟩)
    let config := { config with configPath := some path }
    config.validate
    return config

/-- The configuration of a file. -/
def ofFile (tree : FileTree) (env : Environment) (path : Path) : Except ConfigError Config :=
  match tree.read path with
  | .ok text => ofText env path text
  | .error cause => .error (.unreadable cause)

/-- The places where a configuration file is looked for, the working directory first. -/
def candidates (workingDirectory : Location) : List Path :=
  workingDirectory.path.ancestors.map (·.push fileName)

/-- The nearest configuration file. -/
def discover? (tree : FileTree) : Option Path :=
  (candidates tree.workingDirectory).find? tree.hasEntry

/-- The configuration of a file that was asked for, or of the nearest file, or the default. -/
def loadBase (tree : FileTree) (env : Environment) (path : Option Path) :
    Except ConfigError Config :=
  match path with
  | some path =>
    if tree.hasEntry path then ofFile tree env path else .error (.notFound path)
  | none =>
    match discover? tree with
    | some path => ofFile tree env path
    | none => .ok (withoutFile tree.workingDirectory.path)

/-- Loads a configuration and puts the settings of the command line on top. -/
def load (tree : FileTree) (env : Environment) (path : Option Path)
    (overrides : Option Overrides) :
    Except ConfigError Config := do
  let config ← loadBase tree env path
  match overrides with
  | none => return config
  | some overrides =>
    let config := config.override overrides
    config.validate
    return config

end Config

end StyleBundle

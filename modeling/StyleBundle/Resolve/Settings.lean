import StyleBundle.Path.Normal
import StyleBundle.Wildcard

/-!
# Resolution settings

Where imports are looked up.  `Settings.Draft` is what a caller asks for; `Settings.Draft.build`
makes every directory absolute and normal and refuses drafts that make no sense.
-/

namespace StyleBundle

/-- A replacement for the start of an import. -/
structure Alias where
  /-- The start of the import. -/
  lead : Text
  /-- What stands in its place. -/
  replacement : Text
deriving DecidableEq

/-- A file for the imports that match a pattern. -/
structure Mapping where
  /-- The imports. -/
  pattern : Wildcard
  /-- The file, relative to the root. -/
  target : Text
deriving DecidableEq

/-- The settings that resolution works with. -/
structure Settings where
  /-- The base directory. -/
  root : Path
  /-- The directories searched after the current one. -/
  includePaths : List Path
  /-- The directories searched last. -/
  fallbackDirs : List Path
  /-- The aliases, the first match counts. -/
  aliases : List Alias
  /-- The mappings, in the order in which they are tried. -/
  mappings : List Mapping
  /-- Whether partials are left out as entries of their own. -/
  ignorePartials : Bool
deriving DecidableEq

/-- Why a draft is refused. -/
inductive SettingsError where
  /-- The root is not absolute. -/
  | relativeRoot (root : Path)
  /-- An alias would replace the empty start of every import. -/
  | emptyAlias
  /-- A mapping pattern is too large. -/
  | patternTooLarge (pattern : Text)
deriving DecidableEq

namespace SettingsError

/-- The wording for a pattern over the size limit. -/
def sizeMessage : Text :=
  "Compiled regex exceeds size limit of ".toList ++ Text.ofNat Wildcard.sizeLimit ++
    " bytes.".toList

/-- The wording of an error. -/
def message : SettingsError → Text
  | relativeRoot root => "Root directory must be absolute: ".toList ++ root.text
  | emptyAlias => "Alias prefix cannot be empty".toList
  | patternTooLarge pattern =>
    "Invalid file mapping pattern '".toList ++ pattern ++ "': ".toList ++ sizeMessage

end SettingsError

namespace Settings

/-- Settings as a caller asks for them. -/
structure Draft where
  /-- The base directory. -/
  root : Path
  /-- The directories searched after the current one. -/
  includePaths : List Path
  /-- The directories searched last. -/
  fallbackDirs : List Path
  /-- Starts of imports with their replacements. -/
  aliases : List (Text × Text)
  /-- Patterns of imports with their files. -/
  mappings : List (Text × Text)
  /-- Whether partials are left out as entries of their own. -/
  ignorePartials : Bool
deriving DecidableEq

/-- The aliases of a draft. -/
def buildAliases (pairs : List (Text × Text)) : Except SettingsError (List Alias) :=
  pairs.mapM fun (lead, replacement) =>
    if lead = [] then .error .emptyAlias else .ok ⟨lead, replacement⟩

/-- The mappings of a draft. -/
def buildMappings (pairs : List (Text × Text)) : Except SettingsError (List Mapping) :=
  pairs.mapM fun (pattern, target) =>
    match Wildcard.compile? pattern with
    | some pattern => .ok ⟨pattern, target⟩
    | none => .error (.patternTooLarge pattern)

/-- Turns a draft into settings. -/
def Draft.build (d : Draft) : Except SettingsError Settings := do
  unless d.root.isAbsolute do
    throw (.relativeRoot d.root)
  let root := d.root.normalize
  let aliases ← buildAliases d.aliases
  let mappings ← buildMappings d.mappings
  return {
    root := root
    includePaths := Path.dedup (d.includePaths.map root.resolveIn)
    fallbackDirs := d.fallbackDirs.map root.resolveIn
    aliases := aliases
    mappings := mappings
    ignorePartials := d.ignorePartials
  }

end Settings

end StyleBundle

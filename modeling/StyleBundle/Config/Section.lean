import StyleBundle.Toml.Parser

/-!
# The configuration file as written

The sections of a configuration file before anything is resolved.  Settings that are left out are
nothing.  Names that are not known are passed over.

The sections `project`, `resolve` and `compiler` may also be written as lists, which give their
settings in order.
-/

namespace StyleBundle

/-- The section `project`. -/
structure ProjectSection where
  /-- The root directory. -/
  root : Option Text
  /-- The directory of the stylesheets. -/
  stylesDir : Option Text
  /-- The directory that is written to. -/
  outputDir : Option Text
deriving DecidableEq

/-- The section `resolve`. -/
structure ResolveSection where
  /-- The directories searched after the current one. -/
  includePaths : Option (List Text)
  /-- The directories searched last. -/
  fallbackDirs : Option (List Text)
  /-- Whether partials are left out as entries. -/
  ignorePartials : Option Bool
deriving DecidableEq

/-- The section `compiler`. -/
structure CompilerSection where
  /-- The name of the backend. -/
  backend : Option Text
  /-- The Sass program. -/
  sassBinary : Option Text
  /-- The name of the output style. -/
  style : Option Text
  /-- Whether source maps are written. -/
  sourceMap : Option Bool
  /-- The mixins in front of every stylesheet. -/
  globalMixins : Option (List Text)
  /-- Whether the input of the compiler is written too. -/
  preserveIntermediate : Option Bool
deriving DecidableEq

/-- A configuration file as written. -/
structure ConfigFile where
  /-- The section `project`. -/
  project : ProjectSection
  /-- The section `resolve`. -/
  resolve : ResolveSection
  /-- The section `aliases`. -/
  aliases : List (Text × Toml)
  /-- The section `file_mapping`. -/
  fileMapping : List (Text × Toml)
  /-- The section `entry_groups`. -/
  entryGroups : List (Text × Toml)
  /-- The section `compiler`. -/
  compiler : CompilerSection

namespace ConfigFile

/-- A file without any section. -/
def empty : ConfigFile where
  project := ⟨none, none, none⟩
  resolve := ⟨none, none, none⟩
  aliases := []
  fileMapping := []
  entryGroups := []
  compiler := ⟨none, none, none, none, none, none⟩

/-! ## Checking numbers -/

mutual

/-- Whether every whole number in a value is at least `low` and below `high`. -/
def integersWithin (low high : Int) : Toml → Bool
  | .integer n => low ≤ n && n < high
  | .array items => integersWithinItems low high items
  | .table entries => integersWithinEntries low high entries
  | _ => true

/-- Whether every whole number in a list of values is in the range. -/
def integersWithinItems (low high : Int) : List Toml → Bool
  | [] => true
  | item :: rest => integersWithin low high item && integersWithinItems low high rest

/-- Whether every whole number in the entries of a table is in the range. -/
def integersWithinEntries (low high : Int) : List (Text × Toml) → Bool
  | [] => true
  | (_, item) :: rest => integersWithin low high item && integersWithinEntries low high rest

end

/-- Whether the numbers of a value that is kept fit into 64 bits. -/
def fitsWord (value : Toml) : Bool :=
  integersWithin (-Int.pow 2 63) (Int.pow 2 63) value

/-- Whether the numbers of a value that is passed over fit into 128 bits. -/
def fitsWide (value : Toml) : Bool :=
  integersWithin (-Int.pow 2 127) (Int.pow 2 128) value

/-! ## Reading sections -/

/-- The value under a name. -/
def valueOf? (entries : List (Text × Toml)) (name : String) : Option Toml :=
  (entries.find? fun (other, _) => other == name.toList).map Prod.snd

/-- Reads a setting that may be left out.  Nothing is the answer for a value of the wrong kind. -/
def setting? {α : Type} (read : Toml → Option α) (entries : List (Text × Toml)) (name : String) :
    Option (Option α) :=
  match valueOf? entries name with
  | none => some none
  | some value => (read value).map some

/-- A text. -/
def text? : Toml → Option Text
  | .string value => some value
  | _ => none

/-- A truth value. -/
def flag? : Toml → Option Bool
  | .boolean value => some value
  | _ => none

/-- A list of texts. -/
def texts? : Toml → Option (List Text)
  | .array items => items.mapM text?
  | _ => none

/-- The settings of a section with the given names.  A list gives them in order.  A date counts as
a table of unknown names. -/
def settings? (names : List String) : Option Toml → Option (List (Text × Toml))
  | none => some []
  | some (.table entries) =>
    if entries.all fun (name, value) => names.any (·.toList = name) || fitsWide value then
      some entries
    else none
  | some (.array items) => some ((names.map String.toList).zip items)
  | some (.datetime _) => some []
  | some _ => none

/-- The name under which a date is the only entry of a table. -/
def datetimeName : Text :=
  "$__toml_private_datetime".toList

/-- A section with free names. -/
def table? : Option Toml → Option (List (Text × Toml))
  | none => some []
  | some (.table entries) =>
    if entries.all fun (_, value) => fitsWord value then some entries else none
  | some (.datetime value) => some [(datetimeName, .string value)]
  | some _ => none

/-- Reads the section `project`. -/
def project? (value : Option Toml) : Option ProjectSection := do
  let entries ← settings? ["root", "styles_dir", "output_dir"] value
  return {
    root := ← setting? text? entries "root"
    stylesDir := ← setting? text? entries "styles_dir"
    outputDir := ← setting? text? entries "output_dir"
  }

/-- Reads the section `resolve`. -/
def resolve? (value : Option Toml) : Option ResolveSection := do
  let entries ← settings? ["include_paths", "fallback_dirs", "ignore_partials"] value
  return {
    includePaths := ← setting? texts? entries "include_paths"
    fallbackDirs := ← setting? texts? entries "fallback_dirs"
    ignorePartials := ← setting? flag? entries "ignore_partials"
  }

/-- Reads the section `compiler`. -/
def compiler? (value : Option Toml) : Option CompilerSection := do
  let entries ← settings?
    ["backend", "sass_binary", "style", "source_map", "global_mixins",
      "preserve_intermediate"] value
  return {
    backend := ← setting? text? entries "backend"
    sassBinary := ← setting? text? entries "sass_binary"
    style := ← setting? text? entries "style"
    sourceMap := ← setting? flag? entries "source_map"
    globalMixins := ← setting? texts? entries "global_mixins"
    preserveIntermediate := ← setting? flag? entries "preserve_intermediate"
  }

/-- The names of the sections. -/
def sectionNames : List String :=
  ["project", "resolve", "aliases", "file_mapping", "entry_groups", "compiler"]

/-- Reads the sections of a document. -/
def ofDocument? (entries : List (Text × Toml)) : Option ConfigFile := do
  let entries ← settings? sectionNames (some (.table entries))
  return {
    project := ← project? (valueOf? entries "project")
    resolve := ← resolve? (valueOf? entries "resolve")
    aliases := ← table? (valueOf? entries "aliases")
    fileMapping := ← table? (valueOf? entries "file_mapping")
    entryGroups := ← table? (valueOf? entries "entry_groups")
    compiler := ← compiler? (valueOf? entries "compiler")
  }

/-- Reads the text of a configuration file. -/
def parse? (t : Text) : Option ConfigFile :=
  (Toml.parse? t).bind ofDocument?

end ConfigFile

end StyleBundle

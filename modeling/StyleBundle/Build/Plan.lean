import StyleBundle.Build.Discovery
import StyleBundle.Build.Layout
import StyleBundle.Compile.Compilation
import StyleBundle.Config.Basic
import StyleBundle.Expansion.Expanded

/-!
# Builds

A build expands, compiles and writes every entry of a project.  An entry that fails is noted in
the report, and the others are built all the same.

The build starts with an empty cache and an empty output directory.  Entries of their own come
first, in the order of their paths, then the groups in the order of the configuration.  The
manifest is written last.

Entries do not wait for each other, so they may be built side by side.  `BuildPlan.build` is the
schedule in which one is built after the other, in the order of the report.  Where an entry reads
or writes what another one writes, what it finds is what it finds in this schedule.
-/

namespace StyleBundle

/-- A stylesheet that was written. -/
structure BuiltOutput where
  /-- The entry. -/
  entry : Entry
  /-- The CSS file. -/
  cssPath : Path
  /-- The source map file. -/
  mapPath : Option Path
  /-- The files and URLs that went into it. -/
  dependencies : List Text
deriving DecidableEq

/-- What came out of a build. -/
structure BuildReport where
  /-- The stylesheets that were written. -/
  outputs : List BuiltOutput
  /-- The entries that failed. -/
  failures : List EntryFailure
deriving DecidableEq

namespace BuildReport

/-- A report without entries. -/
def empty : BuildReport := ⟨[], []⟩

/-- Whether nothing failed. -/
def success (r : BuildReport) : Bool :=
  r.failures.isEmpty

/-- The report with the outcome of one more entry. -/
def record (r : BuildReport) : Except EntryFailure BuiltOutput → BuildReport
  | .ok output => { r with outputs := r.outputs ++ [output] }
  | .error failure => { r with failures := r.failures ++ [failure] }

/-- The number of entries. -/
def total (r : BuildReport) : Nat :=
  r.outputs.length + r.failures.length

end BuildReport

/-- What a build works with. -/
structure BuildPlan where
  /-- How imports are resolved. -/
  settings : Settings
  /-- How stylesheets are compiled. -/
  compilation : Compilation
  /-- The directory of the stylesheets. -/
  stylesDir : Path
  /-- The output directory. -/
  layout : Layout
  /-- The entry groups. -/
  groups : List EntryGroup
  /-- Whether the input of the compiler is written too. -/
  preserveIntermediate : Bool

namespace BuildPlan

/-- The compilation that a configuration asks for. -/
def compilationOf (c : Config) (run : Sass.Runner) (scratch : Path) : Compilation where
  compiler :=
    match c.compiler.backend with
    | .passthrough => .passthrough
    | .sass =>
      .sass run scratch {
        binary := c.compiler.sassBinary
        loadPaths := c.resolve.includePaths ++ [c.project.stylesDir]
        style := (OutputStyle.ofName? c.compiler.style).getD .expanded
        sourceMap := c.compiler.sourceMap
      }
  mixins := some ⟨c.project.root, c.project.stylesDir, c.compiler.globalMixins⟩
  packageDir := some (c.project.root.push Discovery.packageDir)

/-- The plan of a configuration. -/
def ofConfig (c : Config) (run : Sass.Runner) (scratch : Path) : Except BuildError BuildPlan :=
  match c.settings with
  | .error cause => .error (.settings cause)
  | .ok settings =>
    .ok {
      settings := settings
      compilation := compilationOf c run scratch
      stylesDir := c.project.stylesDir
      layout := ⟨c.project.outputDir⟩
      groups := c.groups
      preserveIntermediate := c.compiler.preserveIntermediate
    }

/-- Where entries are looked for. -/
def discovery (b : BuildPlan) : Discovery :=
  ⟨b.stylesDir, b.settings.ignorePartials⟩

/-- Expands in a session of its own and keeps what was read. -/
def expanding (b : BuildPlan) (step : Catalog → Expansion Expanded) :
    Building Expanded := fun d =>
  match step ⟨b.settings, d.source⟩ .start with
  | .ok expanded session => .ok expanded (d.rememberAll session.reads)
  | .error cause session => .error (.resolve cause) (d.rememberAll session.reads)

/-- Compiles a text with the files as they are. -/
def compiling (b : BuildPlan) (expanded : Text) (logical : Path) : Building Compiled := fun d =>
  match b.compilation.compile d.tree expanded logical with
  | .ok compiled => .ok compiled d
  | .error cause => .error (.compile cause) d

/-- What is found in the files as they are. -/
def asking {α : Type} (question : FileTree → Except BuildError α) : Building α := fun d =>
  match question d.tree with
  | .ok found => .ok found d
  | .error cause => .error cause d

/-- The texts without those that occur earlier. -/
def dedupTexts (texts : List Text) : List Text :=
  firstOccurrences (· == ·) texts

/-- Compiles an expanded stylesheet and writes what comes out. -/
def compileAndWrite (b : BuildPlan) (entry : Entry) (expanded : Expanded)
    (logical intermediate cssPath : Path) : Building BuiltOutput := do
  let compiled ← b.compiling expanded.content logical
  if b.preserveIntermediate then
    Layout.writeFile (b.layout.intermediatePath intermediate) compiled.input
  let mapPath ← Layout.writeStylesheet cssPath compiled.output.css compiled.output.sourceMap
  return {
    entry := entry
    cssPath := cssPath
    mapPath := mapPath
    dependencies := dedupTexts (expanded.dependencies.map Path.text ++ compiled.output.loadedUrls)
  }

/-- Builds an entry of its own. -/
def buildSingle (b : BuildPlan) (p : Path) : Building BuiltOutput := do
  let relative := b.discovery.relative p
  let expanded ← b.expanding (·.expandFile p)
  b.compileAndWrite (.single relative) expanded p relative (b.layout.singlePath relative)

/-- Expands the members of a group one after the other. -/
def expandMembers (b : BuildPlan) : List Path → Building Expanded
  | [] => return .empty
  | p :: rest => do
    let first ← b.expanding (·.bundleFile p)
    let more ← b.expandMembers rest
    return ⟨first.content ++ more.content, first.dependencies ++ more.dependencies⟩

/-- The file that the text of a group stands in. -/
def groupFile (group : EntryGroup) : Text :=
  group.name ++ ".scss".toList

/-- Builds a group. -/
def buildGroup (b : BuildPlan) (group : EntryGroup) : Building BuiltOutput := do
  let members ← asking fun tree => b.discovery.members tree group.patterns
  let expanded ← b.expandMembers members
  b.compileAndWrite (.group group.name) expanded (b.stylesDir.push (groupFile group))
    ⟨groupFile group⟩ (b.layout.groupPath group.name)

/-- Builds an entry and tells how it went. -/
def attempt (entry : Entry) (step : Building BuiltOutput) :
    Building (Except EntryFailure BuiltOutput) := fun d =>
  match step d with
  | .ok output d => .ok (.ok output) d
  | .error cause d => .ok (.error ⟨entry, cause⟩) d

/-- The source of an entry in the manifest. -/
def sourceOf : Entry → Text
  | .single relative => relative.display
  | .group name => name ++ ".scss".toList

/-- The manifest of a report. -/
def manifest (b : BuildPlan) (r : BuildReport) : Manifest :=
  r.outputs.foldl
    (fun m output =>
      m.insert (b.layout.key output.cssPath) ⟨sourceOf output.entry, output.dependencies⟩)
    .empty

/-- Forgets what was read. -/
def clearCache : Building Unit :=
  modify Disk.clearCache

/-- The patterns of all groups. -/
def groupPatterns (b : BuildPlan) : Except BuildError (List GroupPatterns) :=
  b.groups.mapM fun group => GroupPatterns.compile group.patterns

/-- Builds the whole project, one entry after the other. -/
def build (b : BuildPlan) : Building BuildReport := do
  clearCache
  b.layout.prepare
  let groups ← asking fun _ => b.groupPatterns
  let entries ← asking fun tree => b.discovery.entries tree groups
  let singles ← entries.mapM fun p => attempt (.single (b.discovery.relative p)) (b.buildSingle p)
  let bundles ← b.groups.mapM fun group => attempt (.group group.name) (b.buildGroup group)
  let report := (singles ++ bundles).foldl BuildReport.record .empty
  b.layout.writeManifest (b.manifest report)
  return report

end BuildPlan

end StyleBundle

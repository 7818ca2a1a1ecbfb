import StyleBundle.Build.Plan
import StyleBundle.Cli.Request
import StyleBundle.Config.Load

/-!
# Running a command

What a command line does to the files, and what it prints.  Results go to the standard output,
lines about the progress and errors to the error output.

The exit code is 0 if all went well, 1 if the command failed and 2 if the command line is wrong.
-/

namespace StyleBundle

namespace Cli

/-- What a command meets outside of the project. -/
structure Host where
  /-- The environment. -/
  environment : Environment
  /-- How Sass is run. -/
  sass : Sass.Runner
  /-- The directory for files that Sass writes. -/
  scratch : Path
  /-- Whether the standard output is a terminal. -/
  terminal : Bool

/-- Why a command failed. -/
inductive CommandError where
  /-- The configuration cannot be used. -/
  | config (cause : ConfigError)
  /-- The build could not be run. -/
  | build (cause : BuildError)
  /-- Some entries failed. -/
  | entriesFailed (failed total : Nat)
deriving DecidableEq

/-- The wording of an error. -/
def CommandError.message : CommandError → Text
  | config cause => cause.message
  | build cause => cause.message
  | entriesFailed failed total =>
    Text.ofNat failed ++ " of ".toList ++ Text.ofNat total ++ " entries failed".toList

/-! ## Lines for the reader -/

/-- What a line is about. -/
inductive Tone where
  /-- A fact. -/
  | plain
  /-- All went well. -/
  | success
  /-- An entry failed. -/
  | warning
  /-- The command failed. -/
  | error
  /-- A part went well. -/
  | highlight
deriving DecidableEq

/-- The codes that set the colour of a tone on a terminal. -/
def Tone.codes : Tone → List Nat
  | plain => []
  | success => [32]
  | warning => [33]
  | error => [31]
  | highlight => [36, 1]

/-- A terminal's sequence for a code. -/
def colourSequence (code : Nat) : Text :=
  '\x1b' :: '[' :: Text.ofNat code ++ ['m']

/-- A line in the colour of its tone. -/
def Tone.paint (coloured : Bool) (tone : Tone) (line : Text) : Text :=
  if coloured && !tone.codes.isEmpty then
    tone.codes.flatMap colourSequence ++ line ++ colourSequence 0
  else line

/-- Whether a variable is set to something other than `0`. -/
def isOn (env : Environment) (name : String) (unset : Bool) : Bool :=
  match env.get? name.toList with
  | some value => value != ['0']
  | none => unset

/-- Whether the terminal shows colours. -/
def showsColours (env : Environment) : Bool :=
  (env.get? "NO_COLOR".toList).isNone &&
    match env.get? "TERM".toList with
    | some kind => kind != "dumb".toList
    | none => false

/-- Whether lines are coloured. -/
def Host.coloured (h : Host) : Bool :=
  (h.terminal && showsColours h.environment && isOn h.environment "CLICOLOR" true) ||
    isOn h.environment "CLICOLOR_FORCE" false

/-! ## Commands -/

/-- What a command said and how it ended. -/
structure Transcript where
  /-- The lines about the progress. -/
  lines : List (Tone × Text)
  /-- The printed result, or why there is none. -/
  result : Except CommandError Text

/-- What a configuration file is overridden with. -/
def BuildOptions.overrides (o : BuildOptions) : Overrides where
  root := o.root
  outputDir := o.output
  sassBinary := o.sass
  sourceMap := if o.noSourceMap then some false else none
  backend := if o.passthrough then some .passthrough else none

/-- The lines on what is going to be built. -/
def heading (c : Config) : List (Tone × Text) :=
  (c.configPath.toList.map fun p => (.plain, "Config: ".toList ++ p.text)) ++
    [(.plain, "Styles: ".toList ++ c.project.stylesDir.text),
      (.plain, "Output: ".toList ++ c.project.outputDir.text)]

/-- The line on an entry that failed. -/
def failureLine (f : EntryFailure) : Tone × Text :=
  (.warning, '[' :: f.error.code ++ "] ".toList ++ f.message)

/-- The lines on what was built. -/
def summary (r : BuildReport) : List (Tone × Text) :=
  let total := Text.ofNat r.total ++ " stylesheets".toList
  r.failures.map failureLine ++
    [if r.success then (.success, "Built ".toList ++ total)
      else (.highlight, "Built ".toList ++ Text.ofNat r.outputs.length ++ " of ".toList ++ total)]

/-- How a build ended. -/
def verdict (r : BuildReport) : Except CommandError Text :=
  if r.success then .ok [] else .error (.entriesFailed r.failures.length r.total)

/-- Builds all entries. -/
def runBuild (h : Host) (o : BuildOptions) (tree : FileTree) : Transcript × FileTree :=
  match Config.load tree h.environment o.config (some o.overrides) with
  | .error cause => (⟨[], .error (.config cause)⟩, tree)
  | .ok c =>
    match BuildPlan.ofConfig c h.sass h.scratch with
    | .error cause => (⟨heading c, .error (.build cause)⟩, tree)
    | .ok b =>
      match b.build ⟨tree, []⟩ with
      | .error cause d => (⟨heading c, .error (.build cause)⟩, d.tree)
      | .ok report d => (⟨heading c ++ summary report, verdict report⟩, d.tree)

/-- The path as seen from the working directory. -/
def absolute (tree : FileTree) (p : Path) : Path :=
  if p.isAbsolute then p else tree.workingDirectory.path.join p

/-- The text of an expanded stylesheet, which ends a line, and the files that were inlined. -/
def rendered (e : Expanded) (deps : Bool) : Text :=
  let content := if e.content.getLast? = some '\n' then e.content else e.content ++ ['\n']
  if deps then content ++ '\n' :: e.dependencies.flatMap fun p => p.text ++ ['\n'] else content

/-- Expands one stylesheet. -/
def runExpand (h : Host) (o : ExpandOptions) (tree : FileTree) : Transcript :=
  let result : Except CommandError Text :=
    match Config.load tree h.environment o.config none with
    | .error cause => .error (.config cause)
    | .ok c =>
      match c.settings with
      | .error cause => .error (.build (.settings cause))
      | .ok settings =>
        let catalog : Catalog := ⟨settings, (Disk.mk tree []).source⟩
        match catalog.expandFile (absolute tree o.file) .start with
        | .error cause _ => .error (.build (.resolve cause))
        | .ok expanded _ => .ok (rendered expanded o.deps)
  ⟨[], result⟩

/-! ## Outcomes -/

/-- What a command line printed and its exit code. -/
structure Outcome where
  /-- The exit code. -/
  code : Nat
  /-- The standard output. -/
  output : Text
  /-- The error output. -/
  errors : Text
deriving DecidableEq

/-- Lines as the error output. -/
def errorOutput (h : Host) (lines : List (Tone × Text)) : Text :=
  lines.flatMap fun (tone, line) => tone.paint h.coloured line ++ ['\n']

/-- The outcome of a command. -/
def Transcript.outcome (h : Host) (t : Transcript) : Outcome :=
  match t.result with
  | .ok printed => ⟨0, printed, errorOutput h t.lines⟩
  | .error e =>
    ⟨1, [], errorOutput h (t.lines ++ [(.error, "Error: ".toList ++ e.message)])⟩

/-- Does what is asked for. -/
def perform (h : Host) (tree : FileTree) : Request → Outcome × FileTree
  | .help topic => (⟨0, topic.helpText h.environment, []⟩, tree)
  | .version => (⟨0, Command.programName ++ ' ' :: Command.programVersion ++ ['\n'], []⟩, tree)
  | .build o =>
    let (transcript, after) := runBuild h o tree
    (transcript.outcome h, after)
  | .expand o => ((runExpand h o tree).outcome h, tree)

/-- What is shown for a command line that is wrong. -/
def refusal (env : Environment) : UsageError → Outcome
  | .noCommand => ⟨2, [], Command.program.helpText env⟩
  | e => ⟨2, [], e.message⟩

/-- Runs a command line on the files. -/
def run (h : Host) (arguments : List Text) (tree : FileTree) : Outcome × FileTree :=
  match Request.parse h.environment arguments with
  | .ok request => perform h tree request
  | .error e => (refusal h.environment e, tree)

end Cli

end StyleBundle

import StyleBundle.Config.Environment

/-!
# Commands

The commands of the program with their options and operands, and the help texts that follow from
them.
-/

namespace StyleBundle

namespace Cli

/-- The options of all commands. -/
inductive OptionName where
  /-- The configuration file. -/
  | config
  /-- The project root. -/
  | root
  /-- The output directory. -/
  | output
  /-- The Sass program. -/
  | sass
  /-- No compilation. -/
  | passthrough
  /-- No source maps. -/
  | noSourceMap
  /-- The list of files that were inlined. -/
  | deps
  /-- More output. -/
  | verbose
  /-- The help text. -/
  | help
  /-- The version. -/
  | version
deriving DecidableEq

/-- What a value may be. -/
inductive ValueKind where
  /-- A path, which is never empty. -/
  | path
  /-- Any text. -/
  | text
deriving DecidableEq

/-- A value on the command line. -/
structure Value where
  /-- What it may be. -/
  kind : ValueKind
  /-- Its name in help texts. -/
  label : Text
deriving DecidableEq

/-- How an option is written. -/
structure OptionRule where
  /-- The option. -/
  name : OptionName
  /-- The letter after one dash. -/
  short : Option Char
  /-- The word after two dashes. -/
  long : Text
  /-- The value that it takes. -/
  value : Option Value
  /-- The environment variable that is used in its place. -/
  fromVariable : Option Text
  /-- What it is for. -/
  about : Text
deriving DecidableEq

namespace OptionRule

/-- An option without a value. -/
def flag (name : OptionName) (short : Option Char) (long about : String) : OptionRule :=
  ⟨name, short, long.toList, none, none, about.toList⟩

/-- An option with a path. -/
def path (name : OptionName) (short : Option Char) (long label about : String) : OptionRule :=
  ⟨name, short, long.toList, some ⟨.path, label.toList⟩, none, about.toList⟩

/-- How the option is written with its word. -/
def spelling (rule : OptionRule) : Text :=
  '-' :: '-' :: rule.long ++
    match rule.value with
    | some value => " <".toList ++ value.label ++ ['>']
    | none => []

/-- How the option is written with its letter and its word. -/
def spellings (rule : OptionRule) : Text :=
  match rule.short with
  | some c => '-' :: c :: ", ".toList ++ rule.spelling
  | none => "    ".toList ++ rule.spelling

/-- What the option is for, with its environment variable. -/
def explanation (env : Environment) (rule : OptionRule) : Text :=
  match rule.fromVariable with
  | some name =>
    rule.about ++ " [env: ".toList ++ name ++ '=' :: (env.get? name).getD [] ++ [']']
  | none => rule.about

end OptionRule

/-- An operand of a command. -/
structure OperandRule where
  /-- How it is written in help texts. -/
  spelling : Text
  /-- What it is for. -/
  about : Text
deriving DecidableEq

/-- The commands, and the program as a whole. -/
inductive Command where
  /-- The program without a command. -/
  | program
  /-- Builds all entries. -/
  | build
  /-- Expands one stylesheet. -/
  | expand
  /-- Shows a help text. -/
  | help
deriving DecidableEq

namespace Command

/-- The name of the program. -/
def programName : Text := "sprocket".toList

/-- The version of the program. -/
def programVersion : Text := "0.1.0".toList

/-- The environment variable for the Sass program. -/
def sassVariable : Text := "SPROCKET_SASS".toList

/-- The option for the configuration file. -/
def configRule : OptionRule :=
  .path .config (some 'c') "config" "CONFIG"
    "Path to configuration file (default: auto-discover sprocket.toml)"

/-- The option for more output. -/
def verboseRule : OptionRule :=
  .flag .verbose (some 'v') "verbose" "Enable verbose output"

/-- The option for help. -/
def helpRule : OptionRule :=
  .flag .help (some 'h') "help" "Print help"

/-- The options of a command. -/
def options : Command → List OptionRule
  | program => [helpRule, .flag .version (some 'V') "version" "Print version"]
  | build =>
    [configRule,
      .path .root none "root" "ROOT" "Project root (overrides config)",
      .path .output (some 'o') "output" "OUTPUT"
        "Output directory, relative to the root (overrides config)",
      ⟨.sass, none, "sass".toList, some ⟨.text, "SASS".toList⟩, some sassVariable,
        "Dart Sass executable (overrides config)".toList⟩,
      .flag .passthrough none "passthrough" "Write expanded stylesheets without compiling them",
      .flag .noSourceMap none "no-source-map" "Disable source maps",
      verboseRule, helpRule]
  | expand =>
    [configRule,
      .flag .deps none "deps" "Also print the files that were inlined",
      verboseRule, helpRule]
  | help => []

/-- The operands of a command. -/
def operands : Command → List OperandRule
  | program => []
  | build => []
  | expand => [⟨"<FILE>".toList, "Stylesheet to expand".toList⟩]
  | help => [⟨"[COMMAND]...".toList, "Print help for the subcommand(s)".toList⟩]

/-- What a command does. -/
def about : Command → Text
  | program => "Sprockets stylesheet preprocessor - CLI".toList
  | build => "Build every entry stylesheet into the output directory".toList
  | expand => "Print the expanded text of one stylesheet".toList
  | help => "Print this message or the help of the given subcommand(s)".toList

/-- The commands by name. -/
def named : List (Text × Command) :=
  [("build".toList, build), ("expand".toList, expand), ("help".toList, help)]

/-- The command with a name. -/
def ofName? (name : Text) : Option Command :=
  (named.find? fun (other, _) => other == name).map Prod.snd

/-- How a command is called. -/
def usage : Command → Text
  | program => "Usage: ".toList ++ programName ++ " <COMMAND>".toList
  | build => "Usage: ".toList ++ programName ++ " build [OPTIONS]".toList
  | expand => "Usage: ".toList ++ programName ++ " expand [OPTIONS] <FILE>".toList
  | help => "Usage: ".toList ++ programName ++ " help [COMMAND]...".toList

/-- Rows of two columns, the second of which starts at one place. -/
def table (rows : List (Text × Text)) : Text :=
  let width := (rows.map (·.1.length)).foldl max 0
  rows.flatMap fun (left, right) =>
    "  ".toList ++ left ++ List.replicate (width + 2 - left.length) ' ' ++ right ++ ['\n']

/-- A titled table, or nothing if there are no rows. -/
def titled (title : String) (rows : List (Text × Text)) : Text :=
  if rows.isEmpty then [] else '\n' :: title.toList ++ ":\n".toList ++ table rows

/-- The help text of a command. -/
def helpText (env : Environment) (c : Command) : Text :=
  let commands := if c = program then named.map fun (name, c) => (name, c.about) else []
  c.about ++ "\n\n".toList ++ c.usage ++ ['\n'] ++
    titled "Commands" commands ++
    titled "Arguments" (c.operands.map fun o => (o.spelling, o.about)) ++
    titled "Options" (c.options.map fun o => (o.spellings, o.explanation env))

end Command

end Cli

end StyleBundle

import StyleBundle.Compile.Kind
import StyleBundle.Source.Failure

/-!
# Errors of configuration

Why a configuration cannot be used.
-/

namespace StyleBundle

/-- What is wrong with the settings of a configuration. -/
inductive ConfigProblem where
  /-- A setting that must say something is empty. -/
  | emptySetting (field : Text)
  /-- The build would write over the project itself. -/
  | outputIsRoot
  /-- An entry of a section is no text. -/
  | notText (sectionName key : Text)
  /-- An entry group is no list of texts. -/
  | notTexts (group : Text)
  /-- There is no such backend. -/
  | unknownBackend (name : Text)
  /-- There is no such output style. -/
  | unknownStyle (name : Text)
deriving DecidableEq

namespace ConfigProblem

/-- The wording of a problem. -/
def message : ConfigProblem → Text
  | emptySetting field => field ++ " cannot be empty".toList
  | outputIsRoot => "project.output_dir cannot be the project root".toList
  | notText sectionName key => sectionName ++ '.' :: key ++ " must be a string".toList
  | notTexts group =>
    "entry_groups.".toList ++ group ++ " must be an array of strings".toList
  | unknownBackend name =>
    "compiler.backend must be \"sass\" or \"passthrough\", got \"".toList ++ name ++ ['"']
  | unknownStyle name =>
    "compiler.style must be one of ".toList ++
      Text.joinWith ", ".toList (OutputStyle.all.map OutputStyle.name) ++
      ", got \"".toList ++ name ++ ['"']

end ConfigProblem

/-- Why a configuration could not be loaded. -/
inductive ConfigError where
  /-- The file that was asked for is not there. -/
  | notFound (path : Path)
  /-- The file could not be read. -/
  | unreadable (cause : IoFailure)
  /-- The file is no configuration. -/
  | malformed
  /-- The settings cannot be used. -/
  | invalid (problem : ConfigProblem)
  /-- A variable is not set. -/
  | unsetVariable (field name : Text)
deriving DecidableEq

namespace ConfigError

/-- The wording of an error. -/
def message : ConfigError → Text
  | notFound path => "Configuration file not found: ".toList ++ path.text
  | unreadable cause => "I/O error: ".toList ++ cause.message
  | malformed => "TOML parse error".toList
  | invalid problem => "Invalid configuration: ".toList ++ problem.message
  | unsetVariable field name =>
    "Environment variable error in ".toList ++ field ++ ": $\x7b".toList ++ name ++
      "\x7d not set".toList

end ConfigError

end StyleBundle

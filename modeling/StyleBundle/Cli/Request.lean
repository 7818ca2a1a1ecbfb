import StyleBundle.Cli.Command
import StyleBundle.Path.Basic

/-!
# Reading the command line

Arguments are read from left to right, and the first one that is wrong, or that asks for help,
ends the reading.

* A value follows its option as `--name value`, `--name=value`, `-n value`, `-nvalue` or
  `-n=value`.
* A separate value does not start with a dash, unless it is a single dash.
* Letters without values may share one dash.
* No option is given twice.
* After `--` there are operands only.
-/

namespace StyleBundle

namespace Cli

/-- What is wrong with a command line. -/
inductive UsageError where
  /-- There is no command. -/
  | noCommand
  /-- There is no such command. -/
  | unknownCommand (name : Text)
  /-- An argument is neither an option nor an operand of the command. -/
  | unexpected (command : Command) (argument : Text)
  /-- An option has no value, or an empty path. -/
  | missingValue (command : Command) (option : Text)
  /-- An option without a value has one. -/
  | needlessValue (command : Command) (option value : Text)
  /-- An option is given twice. -/
  | repeated (command : Command) (option : Text)
  /-- An operand is missing. -/
  | missingOperand (command : Command) (operand : Text)
deriving DecidableEq

namespace UsageError

/-- The wording of an error. -/
def description : UsageError → Text
  | noCommand => "a subcommand is required but one was not provided".toList
  | unknownCommand name => "unrecognized subcommand '".toList ++ name ++ ['\'']
  | unexpected _ argument => "unexpected argument '".toList ++ argument ++ "' found".toList
  | missingValue _ option =>
    "a value is required for '".toList ++ option ++ "' but none was supplied".toList
  | needlessValue _ option value =>
    "unexpected value '".toList ++ value ++ "' for '".toList ++ option ++
      "' found; no more were expected".toList
  | repeated _ option =>
    "the argument '".toList ++ option ++ "' cannot be used multiple times".toList
  | missingOperand _ operand =>
    "the following required arguments were not provided:\n  ".toList ++ operand

/-- The command that was called. -/
def command : UsageError → Command
  | noCommand => .program
  | unknownCommand _ => .program
  | unexpected command _ => command
  | missingValue command _ => command
  | needlessValue command _ _ => command
  | repeated command _ => command
  | missingOperand command _ => command

/-- The whole message of an error. -/
def message (e : UsageError) : Text :=
  "error: ".toList ++ e.description ++ "\n\n".toList ++ e.command.usage ++
    "\n\nFor more information, try '--help'.\n".toList

end UsageError

/-- Why reading ends before the last argument. -/
inductive Stop where
  /-- Help was asked for. -/
  | help
  /-- The version was asked for. -/
  | version
  /-- An argument is wrong. -/
  | usage (error : UsageError)
deriving DecidableEq

/-- What the arguments so far have given. -/
structure Reading where
  /-- The options, each with its value or nothing. -/
  given : List (OptionName × Text)
  /-- The operands. -/
  operands : List Text
  /-- The option whose value comes next. -/
  waiting : Option OptionRule
  /-- Whether only operands follow. -/
  operandsOnly : Bool
deriving DecidableEq

namespace Reading

/-- Nothing read. -/
def start : Reading := ⟨[], [], none, false⟩

/-- The value of an option. -/
def value? (r : Reading) (name : OptionName) : Option Text :=
  (r.given.find? fun (other, _) => other = name).map Prod.snd

/-- The value of an option that takes a path. -/
def path? (r : Reading) (name : OptionName) : Option Path :=
  (r.value? name).map Path.mk

/-- Whether an option is given. -/
def has (r : Reading) (name : OptionName) : Bool :=
  (r.value? name).isSome

/-- Whether an empty value counts as none. -/
def refusesEmpty (rule : OptionRule) : Bool :=
  match rule.value with
  | some value => value.kind = .path
  | none => false

/-- Takes an option with its value. -/
def record (command : Command) (rule : OptionRule) (value : Text) (r : Reading) :
    Except Stop Reading :=
  if rule.name = .help then .error .help
  else if rule.name = .version then .error .version
  else if r.has rule.name then .error (.usage (.repeated command rule.spelling))
  else if refusesEmpty rule && value.isEmpty then
    .error (.usage (.missingValue command rule.spelling))
  else .ok { r with given := r.given ++ [(rule.name, value)], waiting := none }

/-- Takes an operand. -/
def operand (command : Command) (argument : Text) (r : Reading) : Except Stop Reading :=
  match command.operands.drop r.operands.length with
  | [] =>
    if command = .program then .error (.usage (.unknownCommand argument))
    else .error (.usage (.unexpected command argument))
  | rule :: _ =>
    if argument.isEmpty then .error (.usage (.missingValue command rule.spelling))
    else .ok { r with operands := r.operands ++ [argument] }

/-- Takes what stands behind two dashes. -/
def long (command : Command) (argument : Text) (r : Reading) : Except Stop Reading :=
  let (name, attached) :=
    match Text.cutFirst? '=' argument with
    | some (name, value) => (name, some value)
    | none => (argument, none)
  match command.options.find? (·.long == name) with
  | none => .error (.usage (.unexpected command ('-' :: '-' :: name)))
  | some rule =>
    match rule.value, attached with
    | none, none => record command rule [] r
    | none, some value => .error (.usage (.needlessValue command ('-' :: '-' :: name) value))
    | some _, some value => record command rule value r
    | some _, none => .ok { r with waiting := some rule }

/-- Takes the letters behind one dash. -/
def shorts (command : Command) (r : Reading) : Text → Except Stop Reading
  | [] => .ok r
  | c :: rest =>
    match command.options.find? (·.short == some c) with
    | none => .error (.usage (.unexpected command ['-', c]))
    | some rule =>
      match rule.value with
      | none => do
        let r ← record command rule [] r
        shorts command r rest
      | some _ =>
        match rest with
        | [] => .ok { r with waiting := some rule }
        | '=' :: value => record command rule value r
        | value => record command rule value r

/-- Whether the argument starts with a dash and is no single dash. -/
def isOption : Text → Bool
  | '-' :: _ :: _ => true
  | _ => false

/-- Takes the next argument. -/
def argument (command : Command) (r : Reading) (argument : Text) : Except Stop Reading :=
  if r.operandsOnly then operand command argument r
  else
    match r.waiting with
    | some rule =>
      if isOption argument then .error (.usage (.missingValue command rule.spelling))
      else record command rule argument r
    | none =>
      match argument with
      | ['-', '-'] => .ok { r with operandsOnly := true }
      | '-' :: '-' :: rest => long command rest r
      | '-' :: c :: rest => shorts command r (c :: rest)
      | _ => operand command argument r

/-- Ends the reading. -/
def finish (command : Command) (r : Reading) : Except Stop Reading :=
  match r.waiting with
  | some rule => .error (.usage (.missingValue command rule.spelling))
  | none =>
    match command.operands.drop r.operands.length with
    | rule :: _ => .error (.usage (.missingOperand command rule.spelling))
    | [] => .ok r

/-- Reads the arguments of a command. -/
def ofArguments (command : Command) (arguments : List Text) : Except Stop Reading := do
  let r ← arguments.foldlM (argument command) start
  finish command r

end Reading

/-- The options of a build. -/
structure BuildOptions where
  /-- The configuration file. -/
  config : Option Path
  /-- The project root. -/
  root : Option Path
  /-- The output directory. -/
  output : Option Path
  /-- The Sass program. -/
  sass : Option Text
  /-- Whether nothing is compiled. -/
  passthrough : Bool
  /-- Whether no source maps are made. -/
  noSourceMap : Bool
deriving DecidableEq

/-- The options of an expansion. -/
structure ExpandOptions where
  /-- The stylesheet. -/
  file : Path
  /-- The configuration file. -/
  config : Option Path
  /-- Whether the files that were inlined are printed too. -/
  deps : Bool
deriving DecidableEq

/-- What a command line asks for. -/
inductive Request where
  /-- A help text. -/
  | help (topic : Command)
  /-- The version. -/
  | version
  /-- A build. -/
  | build (options : BuildOptions)
  /-- An expansion. -/
  | expand (options : ExpandOptions)
deriving DecidableEq

namespace Request

/-- The build that the arguments ask for. -/
def ofBuild (env : Environment) (r : Reading) : Request :=
  .build {
    config := r.path? .config
    root := r.path? .root
    output := r.path? .output
    sass := (r.value? .sass).or (env.get? Command.sassVariable)
    passthrough := r.has .passthrough
    noSourceMap := r.has .noSourceMap
  }

/-- The expansion that the arguments ask for. -/
def ofExpand (r : Reading) : Request :=
  .expand {
    file := ⟨r.operands.headD []⟩
    config := r.path? .config
    deps := r.has .deps
  }

/-- What the reading of a command's arguments asks for. -/
def settle (command : Command) (accept : Reading → Request) :
    Except Stop Reading → Except UsageError Request
  | .ok r => .ok (accept r)
  | .error .help => .ok (.help command)
  | .error .version => .ok .version
  | .error (.usage e) => .error e

/-- The help text that is asked for by a chain of names.  No command has commands of its own. -/
def ofHelp : List Text → Except UsageError Request
  | [] => .ok (.help .program)
  | [name] =>
    match Command.ofName? name with
    | some command => .ok (.help command)
    | none => .error (.unknownCommand name)
  | name :: next :: _ =>
    match Command.ofName? name with
    | some _ => .error (.unknownCommand next)
    | none => .error (.unknownCommand name)

/-- Reads a command line. -/
def parse (env : Environment) : List Text → Except UsageError Request
  | [] => .error .noCommand
  | first :: rest =>
    match Command.ofName? first with
    | some .build => settle .build (ofBuild env) (Reading.ofArguments .build rest)
    | some .expand => settle .expand ofExpand (Reading.ofArguments .expand rest)
    | some _ => ofHelp rest
    | none =>
      match Reading.argument .program .start first with
      | .ok _ => .error .noCommand
      | .error .help => .ok (.help .program)
      | .error .version => .ok .version
      | .error (.usage e) => .error e

end Request

end Cli

end StyleBundle

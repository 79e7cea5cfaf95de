import Influence.Log.Level

/-!
# Command-line arguments

A command line is a command with its own options and positionals; global options may stand
before or behind the command, and behind it they count.  Arguments are read from left to right
and the first fault ends the reading, as does a request for help or for the version.  What is
missing is found out only at the end, and after it what is wrong with an option right in front
of the command, if its value is an argument of its own.
-/

namespace Influence

/-! ## What can be asked for -/

/-- How results are printed. -/
inductive OutputFormat where
  | json
  | summary
  deriving Repr, DecidableEq

/-- The options that every command takes. -/
structure GlobalOptions where
  settings : Option String
  format : OutputFormat
  verbose : Nat
  quiet : Bool
  logFormat : Option LogFormat
  deriving Repr, DecidableEq

/-- What is asked about schemas. -/
structure SchemaRequest where
  name : Option String
  isList : Bool
  isAll : Bool
  isCompact : Bool
  deriving Repr, DecidableEq

/-- A command with its arguments. -/
inductive Command where
  | check (diagram : String)
  | compile (diagram : String) (lp : Option String)
  | solve (diagram : String)
  | analyze (diagram solution : String)
  | schema (request : SchemaRequest)
  | completions (shell : String)
  | version
  deriving Repr, DecidableEq

/-- The names of commands. -/
inductive CommandName where
  | check
  | compile
  | solve
  | analyze
  | schema
  | completions
  | version
  deriving Repr, DecidableEq

namespace CommandName

/-- Every command. -/
def all : List CommandName := [check, compile, solve, analyze, schema, completions, version]

/-- How a command is written. -/
def text : CommandName → String
  | check => "check"
  | compile => "compile"
  | solve => "solve"
  | analyze => "analyze"
  | schema => "schema"
  | completions => "completions"
  | version => "version"

/-- The command of a name. -/
def named? (s : String) : Option CommandName := all.find? fun c => c.text == s

/-- How many positionals a command takes at most. -/
def arity : CommandName → Nat
  | version => 0
  | _ => 1

end CommandName

/-- The options. -/
inductive Switch where
  | settings
  | format
  | verbose
  | quiet
  | logFormat
  | help
  | version
  | lp
  | solution
  | list
  | all
  | compact
  deriving Repr, DecidableEq

namespace Switch

/-- Every option. -/
def every : List Switch :=
  [settings, format, verbose, quiet, logFormat, help, version, lp, solution, list, all, compact]

/-- The long name. -/
def long : Switch → String
  | settings => "settings"
  | format => "format"
  | verbose => "verbose"
  | quiet => "quiet"
  | logFormat => "log-format"
  | help => "help"
  | version => "version"
  | lp => "lp"
  | solution => "solution"
  | list => "list"
  | all => "all"
  | compact => "compact"

/-- The letter. -/
def letter? : Switch → Option Char
  | format => some 'f'
  | verbose => some 'v'
  | quiet => some 'q'
  | help => some 'h'
  | version => some 'V'
  | _ => none

/-- The option takes a value. -/
def takesValue : Switch → Bool
  | settings | format | logFormat | lp | solution => true
  | _ => false

/-- The option may be given more than once. -/
def repeats : Switch → Bool
  | verbose => true
  | _ => false

/-- The command that an option belongs to; the others are global. -/
def owner? : Switch → Option CommandName
  | lp => some .compile
  | solution => some .analyze
  | list | all | compact => some .schema
  | _ => none

/-- The option may stand where this command, or none yet, has been given. -/
def isKnown (command : Option CommandName) (s : Switch) : Bool :=
  match s.owner? with
  | none => true
  | owner => owner == command

end Switch

/-! ## Faults -/

/-- What is wrong with a command line. -/
inductive UsageFault where
  | noCommand
  | unknownCommand (name : String)
  | unknownOption (text : String)
  | unexpectedValue (option : Switch)
  | missingValue (option : Switch)
  | invalidValue (value place : String)
  | repeated (option : Switch)
  | surplus (text : String)
  | missingArgument (name : String)
  /-- Every schema is asked for, and one by name. -/
  | conflict
  deriving Repr, DecidableEq

/-- The wording of a fault. -/
def UsageFault.message : UsageFault → String
  | noCommand => "a command is required"
  | unknownCommand name => "unrecognized command '" ++ name ++ "'"
  | unknownOption text => "unexpected argument '" ++ text ++ "'"
  | unexpectedValue o => "option '--" ++ o.long ++ "' takes no value"
  | missingValue o => "a value is required for '--" ++ o.long ++ "'"
  | invalidValue value place => "invalid value '" ++ value ++ "' for '" ++ place ++ "'"
  | repeated o => "option '--" ++ o.long ++ "' cannot be used more than once"
  | surplus text => "unexpected argument '" ++ text ++ "'"
  | missingArgument name => "required argument '" ++ name ++ "' was not provided"
  | conflict => "argument '--all' cannot be used with a name"

/-- Why the reading of a command line ends early. -/
inductive Halt where
  | usage (fault : UsageFault)
  | help
  /-- The version is asked for, of the program or of one of its commands. -/
  | version (command : Option CommandName)
  deriving Repr, DecidableEq

/-! ## Reading -/

/-- What has been given so far. -/
structure Given where
  command : Option CommandName
  /-- The options before the command, in order. -/
  before : List (Switch × String)
  /-- The options behind the command, in order. -/
  behind : List (Switch × String)
  positionals : List String
  /-- What is wrong with the option right in front of the command.  It is told last. -/
  late : Option Halt
  deriving Repr, DecidableEq

namespace Given

/-- Nothing. -/
def nothing : Given := ⟨none, [], [], [], none⟩

/-- The options on this side of the command. -/
def here (g : Given) : List (Switch × String) := if g.command.isNone then g.before else g.behind

/-- The value of an option; behind the command it counts more. -/
def value? (g : Given) (s : Switch) : Option String := (g.behind.lookup s).or (g.before.lookup s)

/-- The option has been given. -/
def has (g : Given) (s : Switch) : Bool := (g.value? s).isSome

/-- How often an option has been given, on the side that counts. -/
def times (g : Given) (s : Switch) : Nat :=
  match g.behind.countP (·.1 == s) with
  | 0 => g.before.countP (·.1 == s)
  | n => n

end Given

/-- Where a path stands; an empty one is no path. -/
def checkPathText (place value : String) : Except Halt Unit :=
  if value = "" then .error (.usage (.invalidValue value place)) else .ok ()

/-- The shells for which completions can be made. -/
def completionShells : List String := ["bash", "elvish", "fish", "powershell", "zsh"]

/-- The output format of a name. -/
def OutputFormat.named? : String → Option OutputFormat
  | "json" => some .json
  | "summary" => some .summary
  | _ => none

/-- Checks the value of an option. -/
def Switch.check (s : Switch) (value : String) : Except Halt Unit :=
  let place := "--" ++ s.long
  let invalid : Except Halt Unit := .error (.usage (.invalidValue value place))
  match s with
  | settings | lp | solution => checkPathText place value
  | format => if (OutputFormat.named? value).isSome then .ok () else invalid
  | logFormat => if (LogFormat.named? value).isSome then .ok () else invalid
  | _ => .ok ()

/-- Takes an option. -/
def Given.option (g : Given) (s : Switch) (value : String) : Except Halt Given := do
  match s with
  | .help => .error .help
  | .version => .error (.version g.command)
  | _ =>
    s.check value
    if !s.repeats && g.here.any (·.1 == s) then .error (.usage (.repeated s))
    else if g.command.isNone then pure { g with before := g.before ++ [(s, value)] }
    else pure { g with behind := g.behind ++ [(s, value)] }

/-- Takes an argument that is no option. -/
def Given.positional (g : Given) (isTrailing : Bool) (s : String) : Except Halt Given :=
  match g.command with
  | none =>
    match if isTrailing then none else CommandName.named? s with
    | some c => .ok { g with command := some c }
    | none => .error (.usage (.unknownCommand s))
  | some c =>
    if c.arity ≤ g.positionals.length then .error (.usage (.surplus s))
    else do
      match c with
      | .schema => pure ()
      | .completions =>
        if !completionShells.contains s then .error (.usage (.invalidValue s "shell"))
      | _ => checkPathText "diagram" s
      pure { g with positionals := g.positionals ++ [s] }

/-- An argument that begins like an option. -/
def isOptionLike (s : String) : Bool :=
  match s.toList with
  | '-' :: _ :: _ => true
  | _ => false

/-- The command comes next, or `help`. -/
def Given.isBeforeCommand (g : Given) (rest : List String) : Bool :=
  g.command.isNone && rest.head?.any fun s => s == "help" || (CommandName.named? s).isSome

/-- Takes an option whose value must follow, and gives what is left.  Such a value is looked at
when the next argument is taken; the command is taken with all that belongs to it. -/
def Given.optionFromNext (g : Given) (s : Switch) :
    List String → Except Halt (Given × List String)
  | value :: rest =>
    if isOptionLike value then .error (.usage (.missingValue s))
    else match g.option s value with
      | .ok g => .ok (g, rest)
      | .error halt =>
        if g.isBeforeCommand rest then .ok ({ g with late := some halt }, rest) else .error halt
  | [] => .error (.usage (.missingValue s))

/-- Takes a long option; what follows an equals sign is its value. -/
def Given.long (g : Given) (body : List Char) (rest : List String) :
    Except Halt (Given × List String) := do
  let name := String.ofList (body.takeWhile (· ≠ '='))
  match Switch.every.find? fun s => s.long == name && s.isKnown g.command with
  | none => .error (.usage (.unknownOption ("--" ++ String.ofList body)))
  | some s =>
    match s.takesValue, body.dropWhile (· ≠ '=') with
    | true, _ :: value => pure (← g.option s (String.ofList value), rest)
    | true, [] => g.optionFromNext s rest
    | false, [] => pure (← g.option s "", rest)
    | false, _ => .error (.usage (.unexpectedValue s))

/-- Takes letters.  One that needs a value takes the letters behind it, less an equals sign in
front, or else the next argument. -/
def Given.letters (g : Given) : List Char → List String → Except Halt (Given × List String)
  | [], rest => .ok (g, rest)
  | c :: cs, rest => do
    match Switch.every.find? fun s => s.letter? == some c && s.isKnown g.command with
    | none => .error (.usage (.unknownOption ("-" ++ String.ofList [c])))
    | some s =>
      if s.takesValue then
        match cs with
        | [] => g.optionFromNext s rest
        | '=' :: value | value => pure (← g.option s (String.ofList value), rest)
      else
        (← g.option s "").letters cs rest

/-- How a reading ends that finds the names of commands behind `help`. -/
def helpHalt : List String → Halt
  | [] => .help
  | [name] =>
    if name = "help" ∨ (CommandName.named? name).isSome then .help
    else .usage (.unknownCommand name)
  | _ :: name :: _ => .usage (.unknownCommand name)

/-- Takes the arguments from left to right; each step leaves fewer of them. -/
def Given.take (fuel : Nat) (g : Given) (isTrailing : Bool) : List String → Except Halt Given
  | [] => .ok g
  | arg :: rest =>
    match fuel with
    | 0 => .ok g
    | fuel + 1 => do
      if isTrailing then (← g.positional true arg).take fuel true rest
      else match arg.toList with
        | ['-', '-'] => g.take fuel true rest
        | '-' :: '-' :: body =>
          let (g, rest) ← g.long body rest
          g.take fuel false rest
        | '-' :: c :: cs =>
          let (g, rest) ← g.letters (c :: cs) rest
          g.take fuel false rest
        | _ =>
          if g.command.isNone && arg = "help" then .error (helpHalt rest)
          else (← g.positional false arg).take fuel false rest

/-- The command that was given, if nothing is missing. -/
def Given.toCommand (g : Given) (c : CommandName) : Except Halt Command := do
  let first := g.positionals.head?
  let diagram : Except Halt String := match first with
    | some path => .ok path
    | none => .error (.usage (.missingArgument "diagram"))
  match c with
  | .check => pure (.check (← diagram))
  | .compile => pure (.compile (← diagram) (g.value? .lp))
  | .solve => pure (.solve (← diagram))
  | .analyze =>
    match g.value? .solution with
    | some solution => pure (.analyze (← diagram) solution)
    | none => .error (.usage (.missingArgument "--solution"))
  | .schema =>
    if g.has .all && first.isSome then .error (.usage .conflict)
    pure (.schema ⟨first, g.has .list, g.has .all, g.has .compact⟩)
  | .completions =>
    match first with
    | some shell => pure (.completions shell)
    | none => .error (.usage (.missingArgument "shell"))
  | .version => pure .version

/-- The global options that were given.  The environment may name the settings. -/
def Given.toOptions (g : Given) (settings : Option String) : GlobalOptions where
  settings := (g.value? .settings).or settings
  format := ((g.value? .format).bind OutputFormat.named?).getD .json
  verbose := g.times .verbose
  quiet := g.has .quiet
  logFormat := (g.value? .logFormat).bind LogFormat.named?

/-- The environment is asked for the settings, on one side of the command at least. -/
def Given.asksEnvironment (g : Given) : Bool :=
  !(g.before.any (·.1 == .settings) && g.behind.any (·.1 == .settings))

/-- Reads a command line.  `settings` is the path that the environment names. -/
def readArguments (settings : Option String) (args : List String) :
    Except Halt (GlobalOptions × Command) := do
  let g ← Given.nothing.take args.length false args
  match g.command with
  | none => .error (.usage .noCommand)
  | some c =>
    if settings = some "" && g.asksEnvironment then
      .error (.usage (.invalidValue "" "--settings"))
    let command ← g.toCommand c
    match g.late with
    | some halt => .error halt
    | none => pure (g.toOptions settings, command)

end Influence

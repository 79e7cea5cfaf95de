import Influence.Text.Blank

/-!
# Log levels and formats

How much is logged, and how.  Levels are ordered from the one that shows most to the one
that shows nothing.  Flags on the command line win over the environment, and the environment
over the defaults; a name that the environment gets wrong counts as not given.
-/

namespace Influence

/-- How much is logged. -/
inductive LogLevel where
  | trace
  | debug
  | info
  | warn
  | error
  | off
  deriving Repr, DecidableEq

/-- How log records are written. -/
inductive LogFormat where
  /-- Text for people. -/
  | human
  /-- One JSON object per line. -/
  | jsonl
  deriving Repr, DecidableEq

namespace LogLevel

/-- Every level, the one that shows most first. -/
def all : List LogLevel := [trace, debug, info, warn, error, off]

/-- The place of a level in the order. -/
def rank : LogLevel → Nat
  | trace => 0
  | debug => 1
  | info => 2
  | warn => 3
  | error => 4
  | off => 5

instance : LT LogLevel := ⟨fun a b => a.rank < b.rank⟩
instance : LE LogLevel := ⟨fun a b => a.rank ≤ b.rank⟩
instance : DecidableLT LogLevel := fun a b => inferInstanceAs (Decidable (a.rank < b.rank))
instance : DecidableLE LogLevel := fun a b => inferInstanceAs (Decidable (a.rank ≤ b.rank))

/-- The name of a level. -/
def text : LogLevel → String
  | trace => "trace"
  | debug => "debug"
  | info => "info"
  | warn => "warn"
  | error => "error"
  | off => "off"

/-- Every name that a level answers to. -/
def names : LogLevel → List String
  | warn => ["warn", "warning"]
  | off => ["off", "quiet"]
  | l => [l.text]

/-- The level that flags ask for: the quiet flag wins, and without flags none. -/
def ofFlags (verbose : Nat) (quiet : Bool) : Option LogLevel :=
  if quiet then some error
  else match verbose with
    | 0 => none
    | 1 => some info
    | 2 => some debug
    | _ => some trace

end LogLevel

namespace LogFormat

/-- Every format. -/
def all : List LogFormat := [human, jsonl]

/-- The name of a format. -/
def text : LogFormat → String
  | human => "human"
  | jsonl => "jsonl"

/-- Every name that a format answers to. -/
def names : LogFormat → List String
  | human => ["human", "pretty"]
  | jsonl => ["jsonl", "json"]

/-- The format of a name, to the letter. -/
def named? (name : String) : Option LogFormat := all.find? fun f => f.names.contains name

end LogFormat

/-- The letters A to Z made small and everything else kept. -/
def foldCase (s : String) : String := s.map Char.toLower

/-- A name without blanks at its ends and without regard to case. -/
def looseName (s : String) : String := foldCase (String.ofList (Text.trim s.toList))

/-- The level of a name, read loosely. -/
def LogLevel.read? (s : String) : Option LogLevel :=
  LogLevel.all.find? fun l => l.names.contains (looseName s)

/-- The format of a name, read loosely. -/
def LogFormat.read? (s : String) : Option LogFormat := LogFormat.named? (looseName s)

/-- The logging of a run. -/
structure LogConfig where
  format : LogFormat
  level : LogLevel
  /-- Text for people starts with the time. -/
  timestamps : Bool
  deriving Repr, DecidableEq

namespace LogConfig

/-- The variable that holds a level. -/
def levelVariable : String := "DP_LOG"

/-- The variable that holds a format. -/
def formatVariable : String := "DP_LOG_FORMAT"

/-- The logging that flags and the environment ask for. -/
def resolve (environment : String → Option String) (level : Option LogLevel)
    (format : Option LogFormat) : LogConfig :=
  let level := (level.or ((environment levelVariable).bind LogLevel.read?)).getD .warn
  let format := (format.or ((environment formatVariable).bind LogFormat.read?)).getD .human
  ⟨format, level, level ≤ .debug⟩

end LogConfig

end Influence

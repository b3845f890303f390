namespace ApiPresence

inductive LogFormat where
  | compact
  | full
  | json
  deriving DecidableEq, Repr

namespace LogFormat

def all : List LogFormat := [compact, full, json]

def name : LogFormat → String
  | compact => "Compact"
  | full => "Full"
  | json => "Json"

def ofName? (name : String) : Option LogFormat :=
  all.find? fun format => format.name.toList.map Char.toLower = name.toList.map Char.toLower

end LogFormat

structure LogSettings where
  /-- A level, or which part of the program is to log from which level on. -/
  filter : String
  format : LogFormat
  threadIds : Bool
  sourceLocation : Bool
  deriving DecidableEq, Repr

/-- What the surroundings of a run say about logging. -/
structure LogEnvironment where
  filter : Option String
  format : Option String
  deriving DecidableEq, Repr

namespace LogSettings

def default : LogSettings := ⟨"warn", .compact, false, false⟩

def ofVerbosity : Nat → LogSettings
  | 0 => default
  | 1 => { default with filter := "info" }
  | 2 => { default with filter := "debug", sourceLocation := true }
  | _ => ⟨"trace", .full, true, true⟩

/-- What the surroundings say goes first; a format that is not known is left aside. -/
def merge (s : LogSettings) (environment : LogEnvironment) : LogSettings :=
  { s with
    filter := environment.filter.getD s.filter
    format := (environment.format.bind LogFormat.ofName?).getD s.format }

/-- Quiet runs log errors alone, whatever else is said. -/
def ofRun (verbosity : Nat) (quiet : Bool) (environment : LogEnvironment) : LogSettings :=
  let s := (ofVerbosity verbosity).merge environment
  if quiet then { s with filter := "error" } else s

end LogSettings
end ApiPresence

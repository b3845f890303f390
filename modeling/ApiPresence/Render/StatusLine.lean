import ApiPresence.Report

namespace ApiPresence

inductive Level where
  | success
  | warning
  | error
  deriving DecidableEq, Repr

namespace Level

def tag : Level → String
  | success => "SUCCESS:"
  | warning => "WARNING:"
  | error => "ERROR:"

def colorCode : Level → String
  | success => "32"
  | warning => "33"
  | error => "31"

def ofStatus : Status → Level
  | .present => success
  | .missing => warning

end Level

/-- Colours are wanted for a report, and the terminal is not kept from showing them. -/
structure Coloring where
  wanted : Bool
  permitted : Bool
  deriving DecidableEq, Repr

namespace Coloring

def none : Coloring := ⟨false, false⟩

def isOn (c : Coloring) : Bool := c.wanted && c.permitted

end Coloring

def Level.shown (level : Level) (coloring : Coloring) : String :=
  if coloring.isOn then "\x1b[1;" ++ level.colorCode ++ "m" ++ level.tag ++ "\x1b[0m" else level.tag

def statusLine (level : Level) (message : String) (coloring : Coloring) : String :=
  level.shown coloring ++ " " ++ message

end ApiPresence

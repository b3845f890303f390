import ApiPresence.Render.Format

namespace ApiPresence

inductive Argument where
  | document
  | verbose
  | quiet
  | config
  | output
  | noColor
  | help
  | version
  deriving DecidableEq, Repr

namespace Argument

def all : List Argument := [document, verbose, quiet, config, output, noColor, help, version]

def longName? : Argument → Option String
  | document => none
  | verbose => some "verbose"
  | quiet => some "quiet"
  | config => some "config"
  | output => some "output"
  | noColor => some "no-color"
  | help => some "help"
  | version => some "version"

def letter? : Argument → Option Char
  | verbose => some 'v'
  | quiet => some 'q'
  | config => some 'c'
  | output => some 'o'
  | help => some 'h'
  | version => some 'V'
  | document | noColor => none

def ofLongName? (name : String) : Option Argument := all.find? (·.longName? = some name)

def ofLetter? (c : Char) : Option Argument := all.find? (·.letter? = some c)

def takesValue : Argument → Bool
  | config | output => true
  | _ => false

def label : Argument → String
  | document => "[DOCUMENT]"
  | verbose => "--verbose..."
  | quiet => "--quiet"
  | config => "--config <CONFIG>"
  | output => "--output <OUTPUT>"
  | noColor => "--no-color"
  | help => "--help"
  | version => "--version"

def possibleValues : Argument → List String
  | output => OutputFormat.all.map OutputFormat.name
  | _ => []

end Argument

/-- What a command line asks for. -/
structure Invocation where
  document : Option String
  verbose : Nat
  quiet : Bool
  config : Option String
  output : Option OutputFormat
  noColor : Bool
  deriving DecidableEq, Repr

namespace Invocation

def empty : Invocation := ⟨none, 0, false, none, none, false⟩

def verbosity (i : Invocation) : Nat := if i.quiet then 0 else i.verbose

end Invocation
end ApiPresence

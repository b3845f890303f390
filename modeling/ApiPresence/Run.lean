import ApiPresence.CommandLine.Parse
import ApiPresence.Config.Load
import ApiPresence.Logging.Filter
import ApiPresence.Writer

namespace ApiPresence

/-- What a run finds around it. -/
structure Surroundings where
  files : FileSystem
  log : LogEnvironment
  /-- Whether the output goes to a terminal. -/
  terminal : Bool

/--
How a run ends: its exit code, its output, and what it says beside it, log lines apart. The output
is taken to have room for all that is written to it.
-/
structure Outcome where
  exitCode : Nat
  output : String
  notices : String
  deriving DecidableEq, Repr

namespace Invocation

def documentPath (i : Invocation) (config : Config) : String :=
  i.document.getD config.documentPath

def reportFormat (i : Invocation) (config : Config) : OutputFormat :=
  (i.output.or config.output.format).getD .default

def coloring (i : Invocation) (terminal : Bool) : Coloring :=
  let on := !i.noColor && terminal
  ⟨on, on⟩

/-- The settings can turn colours off as well. -/
def coloringUnder (i : Invocation) (config : Config) (terminal : Bool) : Coloring :=
  let on := (i.coloring terminal).isOn && config.output.color
  ⟨on, on⟩

def failure (error : RunError) (coloring : Coloring) : Nat × String :=
  (error.exitCode, error.line coloring ++ "\n")

def checkUnder (i : Invocation) (config : Config) (around : Surroundings) : Nat × String :=
  let coloring := i.coloringUnder config around.terminal
  let document := i.documentPath config
  match reportOn around.files document with
  | .error error => failure error coloring
  | .ok report => (0, reportLines (i.reportFormat config) coloring document report)

/-- The exit code and the output; the settings come before the description. -/
def check (i : Invocation) (around : Surroundings) : Nat × String :=
  match Config.load around.files i.config with
  | .error error => failure error (i.coloring around.terminal)
  | .ok config => i.checkUnder config around

/-- What is said when logging cannot start, which does not end the run. -/
def logNotice (i : Invocation) (around : Surroundings) : String :=
  let settings := LogSettings.ofRun i.verbosity i.quiet around.log
  match LogFilter.error? settings.filter with
  | some error => "Failed to initialize logging: " ++ error.message ++ "\n"
  | none => ""

def run (i : Invocation) (around : Surroundings) : Outcome :=
  let (exitCode, output) := i.check around
  ⟨exitCode, output, i.logNotice around⟩

end Invocation

/-- A command line that is not carried out; only a refusal is no output. -/
def Stop.outcome (stop : Stop) : Outcome :=
  let message := stop.message Help.programTitle
  match stop with
  | .refused _ => ⟨stop.exitCode, "", message⟩
  | .help _ | .version => ⟨stop.exitCode, message, ""⟩

/-- The whole program on some words, with an output that takes all of what it writes. -/
def run (around : Surroundings) (words : List String) : Outcome :=
  match CommandLine.parse words with
  | .error stop => stop.outcome
  | .ok invocation => invocation.run around

end ApiPresence

import ApiPresence.CommandLine.Argument

namespace ApiPresence

namespace OutputFormat

def summary : OutputFormat → String
  | human => "Human-readable report lines"
  | json => "JSON output"
  | jsonPretty => "Pretty-printed JSON output"
  | yaml => "YAML output"

end OutputFormat

namespace Help

def spaces (n : Nat) : String := String.ofList (List.replicate n ' ')

def padded (width : Nat) (text : String) : String := text ++ spaces (width - text.length)

/-- How an argument is written, its letter first. -/
def synopsis (a : Argument) : String :=
  match a with
  | .document => a.label
  | _ =>
    match a.letter? with
    | some letter => "-" ++ letter.toString ++ ", " ++ a.label
    | none => "    " ++ a.label

def summary (long : Bool) : Argument → String
  | .document => "Path to the API description document (YAML or JSON)"
  | .verbose => "Enable verbose logging (can be used multiple times for increased verbosity)"
  | .quiet => "Only log errors"
  | .config => "Path to configuration file"
  | .output => "Output format for the report"
  | .noColor => "Disable colored output"
  | .help =>
    if long then "Print help (see a summary with '-h')" else "Print help (see more with '--help')"
  | .version => "Print version"

def formatLines : List String :=
  let width := (OutputFormat.all.map fun format => format.name.length + 1).foldl max 0
  "Possible values:" :: OutputFormat.all.map fun format =>
    "- " ++ padded width (format.name ++ ":") ++ " " ++ format.summary

def details : Argument → List String
  | .document =>
    ["", "Defaults to the document named in --config, then docs/openapi.yaml."]
  | .output => "" :: formatLines
  | _ => []

/-- The options with the widest synopsis make the column for all of them. -/
def shortEntry (width : Nat) (a : Argument) : String :=
  let choices :=
    if a.possibleValues = [] then ""
    else " [possible values: " ++ String.intercalate ", " a.possibleValues ++ "]"
  "  " ++ padded width (synopsis a) ++ "  " ++ summary false a ++ choices ++ "\n"

/-- An empty line keeps its indentation, except where a list starts. -/
def longLine (a : Argument) (line : String) : String :=
  (if line = "" ∧ a ≠ .document then "" else spaces 10 ++ line) ++ "\n"

def longEntry (a : Argument) : String :=
  "  " ++ synopsis a ++ "\n"
    ++ String.join ((summary true a :: details a).map (longLine a))

def options : List Argument := Argument.all.filter (· ≠ .document)

def entries (long : Bool) (arguments : List Argument) : String :=
  if long then String.intercalate "\n" (arguments.map longEntry)
  else
    let width := (arguments.map fun a => (synopsis a).length).foldl max 0
    String.join (arguments.map (shortEntry width))

def text (title : String) (long : Bool) : String :=
  title ++ "\n\nUsage: apicheck [OPTIONS] [DOCUMENT]\n\nArguments:\n"
    ++ entries long [.document] ++ "\nOptions:\n" ++ entries long options

def title : String := "Apicheck - structural presence checks for an OpenAPI document"

def programTitle : String :=
  "Command-line interface for Apicheck - structural presence checks for OpenAPI documents"

def version : String := "apicheck 0.1.0\n"

end Help
end ApiPresence

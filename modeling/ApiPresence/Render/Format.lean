import ApiPresence.Json.Printer
import ApiPresence.Render.StatusLine
import ApiPresence.Report
import ApiPresence.Tree.Decode
import ApiPresence.Yaml.Printer

namespace ApiPresence

inductive OutputFormat where
  | human
  | json
  | jsonPretty
  | yaml
  deriving DecidableEq, Repr

namespace OutputFormat

def all : List OutputFormat := [human, json, jsonPretty, yaml]

def name : OutputFormat → String
  | human => "human"
  | json => "json"
  | jsonPretty => "json-pretty"
  | yaml => "yaml"

def default : OutputFormat := human

def names : List (String × OutputFormat) := all.map fun f => (f.name, f)

def ofTree : Tree → Except Mismatch OutputFormat := Decode.variant names

/-- The text of any value; the human format has no rule of its own for one. -/
def formatTree : OutputFormat → Tree → String
  | json, tree => Json.print .compact tree
  | jsonPretty, tree => Json.print .pretty tree
  | yaml, tree => Yaml.print tree
  | human, tree => Json.print .pretty tree

end OutputFormat

/-- A report for machines: the document, the verdict in numbers, and the report's own members. -/
def Report.envelope (document : String) (r : Report) : Tree :=
  .object ([
    ("document", .string document),
    ("complete", .bool r.isComplete),
    ("present", countTree r.presentCount),
    ("missing", countTree r.missingCount)] ++ r.members)

def Check.line (c : Check) (coloring : Coloring) : String :=
  statusLine (.ofStatus c.status) c.message coloring

def decimal (n : Nat) : String := String.ofList (FloatNotation.digitsOf n)

def Summary.lines (s : Summary) : List String := [
  "OpenAPI version: " ++ s.versionDisplay,
  "API title: " ++ s.titleDisplay,
  "API description: " ++ s.descriptionExcerpt,
  "Server count: " ++ decimal s.serverCount,
  "Tag count: " ++ decimal s.tagCount,
  "Path count: " ++ decimal s.pathCount,
  "Schema count: " ++ decimal s.schemaCount]

def Report.lines (document : String) (r : Report) (coloring : Coloring) : List String :=
  statusLine .success ("Document parsed successfully: " ++ document) coloring :: r.summary.lines
    ++ r.checks.map (·.line coloring)
    ++ ["", statusLine .success "Document validation complete" coloring]

def joinLines (lines : List String) : String := String.join (lines.map (· ++ "\n"))

/-- The text of a report; only the human one can be coloured. -/
def OutputFormat.formatReport (format : OutputFormat) (document : String) (r : Report)
    (coloring : Coloring) : String :=
  match format with
  | .human => joinLines (r.lines document coloring)
  | format => format.formatTree (r.envelope document)

end ApiPresence

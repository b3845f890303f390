import ApiPresence.Render.Format

namespace ApiPresence

structure OutputConfig where
  format : Option OutputFormat
  color : Bool
  deriving DecidableEq, Repr

/-- The settings that a file may give. -/
structure Config where
  document : Option String
  output : OutputConfig
  deriving DecidableEq, Repr

namespace OutputConfig

def default : OutputConfig := ⟨none, true⟩

/-- The settings of a file that have been read so far. -/
structure Draft where
  format : Option (Option OutputFormat)
  color : Option Bool
  deriving DecidableEq, Repr

namespace Draft

def empty : Draft := ⟨none, none⟩

def finish (d : Draft) : OutputConfig :=
  ⟨d.format.getD default.format, d.color.getD default.color⟩

end Draft
end OutputConfig

namespace Config

def default : Config := ⟨none, .default⟩

def defaultDocument : String := "docs/openapi.yaml"

def documentPath (c : Config) : String := c.document.getD defaultDocument

def toTree (c : Config) : Tree :=
  .object [
    ("document", c.document.elim .null .string),
    ("output", .object [
      ("format", c.output.format.elim .null fun format => .string format.name),
      ("color", .bool c.output.color)])]

structure Draft where
  document : Option (Option String)
  output : Option OutputConfig
  deriving DecidableEq, Repr

namespace Draft

def empty : Draft := ⟨none, none⟩

def finish (d : Draft) : Config := ⟨d.document.getD default.document, d.output.getD default.output⟩

end Draft

end Config
end ApiPresence

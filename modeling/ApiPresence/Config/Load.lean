import ApiPresence.Config
import ApiPresence.Error
import ApiPresence.FileSystem
import ApiPresence.Json.Structure
import ApiPresence.Toml.Structure
import ApiPresence.Yaml.Structure

namespace ApiPresence

def OutputConfig.jsonFields : List (Json.Field OutputConfig.Draft) := [
  ⟨"format", (·.format.isSome), fun d text => do
    let (format, rest) ← Json.readOptional (Json.readVariant OutputFormat.names) text
    .ok ({ d with format := some format }, rest)⟩,
  ⟨"color", (·.color.isSome), fun d text => do
    let (color, rest) ← Json.readBool text
    .ok ({ d with color := some color }, rest)⟩]

def OutputConfig.readJson (text : List Char) : Except Json.Fault (OutputConfig × List Char) := do
  let (d, rest) ← Json.readStructure "struct OutputConfig" jsonFields .empty text
  .ok (d.finish, rest)

namespace Config

def jsonFields : List (Json.Field Draft) := [
  ⟨"document", (·.document.isSome), fun d text => do
    let (document, rest) ← Json.readOptional (Json.readTextValue "path string") text
    .ok ({ d with document := some document }, rest)⟩,
  ⟨"output", (·.output.isSome), fun d text => do
    let (output, rest) ← OutputConfig.readJson text
    .ok ({ d with output := some output }, rest)⟩]

def readJson (text : List Char) : Except Json.Fault (Config × List Char) := do
  let (d, rest) ← Json.readStructure "struct Config" jsonFields .empty text
  .ok (d.finish, rest)

def parseJson (content : String) : Except Json.Error Config := Json.readDocument readJson content

end Config

def OutputConfig.tomlFields : List (Toml.Field OutputConfig.Draft) := [
  ⟨"format", fun d item => do
    let format ← Toml.readVariant OutputFormat.names item
    .ok { d with format := some (some format) }⟩,
  ⟨"color", fun d item => do
    let color ← Toml.readBool "a boolean" item
    .ok { d with color := some color }⟩]

namespace Config

def tomlFields : List (Toml.Field Draft) := [
  ⟨"document", fun d item => do
    let document ← Toml.readText "path string" item
    .ok { d with document := some (some document) }⟩,
  ⟨"output", fun d item => do
    let output ← Toml.readStructure "struct OutputConfig" OutputConfig.tomlFields .empty item
    .ok { d with output := some output.finish }⟩]

def parseToml (content : String) : Except Toml.Error Config := do
  let d ← Toml.parse tomlFields .empty content
  .ok d.finish

end Config

def OutputConfig.yamlFields : List (Yaml.Field OutputConfig.Draft) := [
  ⟨"format", (·.format.isSome), fun document path d p => do
    let (format, p) ← document.readOptional (document.readVariant OutputFormat.names path) p
    .ok ({ d with format := some format }, p)⟩,
  ⟨"color", (·.color.isSome), fun document path d p => do
    let (color, p) ← document.readBool path p
    .ok ({ d with color := some color }, p)⟩]

namespace Config

def yamlFields : List (Yaml.Field Draft) := [
  ⟨"document", (·.document.isSome), fun document path d p => do
    let (name, p) ← document.readOptional (document.readText "path string" path) p
    .ok ({ d with document := some name }, p)⟩,
  ⟨"output", (·.output.isSome), fun document path d p => do
    let (output, p) ←
      document.readStructure "struct OutputConfig" OutputConfig.yamlFields path .empty p
    .ok ({ d with output := some output.finish }, p)⟩]

/-- The settings of a text in YAML; merge keys are not followed here. -/
def parseYaml (content : String) : Except Yaml.Error Config := do
  let document := Yaml.Document.ofText content
  let d ← document.readAll (document.readStructure "struct Config" yamlFields [] .empty)
  .ok d.finish

end Config

inductive ConfigFormat where
  | yaml
  | toml
  | json
  deriving DecidableEq, Repr

/-- YAML and TOML behind their extensions in small letters, and JSON behind all others. -/
def ConfigFormat.ofPath (path : String) : ConfigFormat :=
  match (FilePath.extension? path).map String.ofList with
  | some "yaml" | some "yml" => yaml
  | some "toml" => toml
  | _ => json

namespace Config

def parse (format : ConfigFormat) (content : String) : Except String Config :=
  match format with
  | .yaml => (parseYaml content).mapError Yaml.Error.message
  | .toml => (parseToml content).mapError Toml.Error.message
  | .json => (parseJson content).mapError Json.Error.message

def ofFile (fs : FileSystem) (path : String) : Except RunError Config :=
  match fs.readText path with
  | .error fault => .error (.config ("Failed to read " ++ path ++ ": " ++ fault.message))
  | .ok content =>
    (parse (.ofPath path) content).mapError fun reason =>
      .config ("Failed to parse " ++ path ++ ": " ++ reason)

/-- The settings of the file that is named, or the defaults. -/
def load (fs : FileSystem) (path : Option String) : Except RunError Config :=
  match path with
  | some path => ofFile fs path
  | none => .ok default

end Config

end ApiPresence

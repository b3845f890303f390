import ApiPresence.Error
import ApiPresence.FileSystem
import ApiPresence.Json.Reader
import ApiPresence.Validation
import ApiPresence.Yaml.Convert
import ApiPresence.Yaml.Load

namespace ApiPresence

/-- The tree of a text in YAML; merge keys are followed before keys become strings. -/
def parseYaml (path content : String) : Except LoadError Tree :=
  match Yaml.loadMerged content with
  | .error fault => .error ⟨path, .malformed .yaml fault.message⟩
  | .ok value =>
    match value.toTree with
    | .error fault => .error ⟨path, .notTree fault.message⟩
    | .ok tree => .ok tree

def parseJson (path content : String) : Except LoadError Tree :=
  (Json.parse content).mapError fun fault => ⟨path, .malformed .json fault.message⟩

def parseContent (format : DocumentFormat) (path content : String) : Except LoadError Tree :=
  match format with
  | .yaml => parseYaml path content
  | .json => parseJson path content

/-- The tree of the file at a path, in the notation that the path's extension tells. -/
def loadDocument (fs : FileSystem) (path : String) : Except LoadError Tree :=
  if fs.contains path then
    match fs.readText path with
    | .error fault => .error ⟨path, .unreadable fault.message⟩
    | .ok content => parseContent (.ofPath path) path content
  else .error ⟨path, .notFound⟩

def reportOn (fs : FileSystem) (document : String) : Except RunError Report :=
  match loadDocument fs document with
  | .error e => .error (.ofLoadError e)
  | .ok tree => .ok (validate .default tree)

end ApiPresence

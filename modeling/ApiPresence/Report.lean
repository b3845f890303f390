import ApiPresence.Json.Printer

namespace ApiPresence

inductive Category where
  | metadata
  | path
  | schema
  | security
  deriving DecidableEq, Repr

namespace Category

def all : List Category := [metadata, path, schema, security]

def name : Category → String
  | metadata => "metadata"
  | path => "path"
  | schema => "schema"
  | security => "security"

def label : Category → String
  | metadata => "Metadata"
  | path => "Path"
  | schema => "Schema"
  | security => "Security scheme"

end Category

inductive Status where
  | present
  | missing
  deriving DecidableEq, Repr

namespace Status

def all : List Status := [present, missing]

def name : Status → String
  | present => "present"
  | missing => "missing"

def ofPresence (found : Bool) : Status := if found then present else missing

def isPresent (s : Status) : Bool := s = present

end Status

structure Check where
  category : Category
  identifier : String
  status : Status
  deriving DecidableEq, Repr

def Check.message (c : Check) : String :=
  c.category.label ++ " " ++ c.status.name ++ ": " ++ c.identifier

structure Summary where
  version : Option Tree
  title : Option Tree
  descriptionExcerpt : String
  serverCount : Nat
  tagCount : Nat
  pathCount : Nat
  schemaCount : Nat
  deriving DecidableEq

/-- A scalar for readers: strings without quotes, and `None` for nothing. -/
def displayScalar : Option Tree → String
  | none | some .null => "None"
  | some (.string s) => s
  | some tree => Json.compact tree

def Summary.versionDisplay (s : Summary) : String := displayScalar s.version

def Summary.titleDisplay (s : Summary) : String := displayScalar s.title

structure Report where
  summary : Summary
  checks : List Check
  deriving DecidableEq

namespace Report

def presentCount (r : Report) : Nat := r.checks.countP (·.status.isPresent)

def missingCount (r : Report) : Nat := r.checks.length - r.presentCount

def isComplete (r : Report) : Bool := r.missingCount == 0

def checksIn (r : Report) (category : Category) : List Check :=
  r.checks.filter (·.category = category)

def missing (r : Report) : List Check := r.checks.filter (!·.status.isPresent)

end Report

def countTree (n : Nat) : Tree := .number (.ofNat n)

def Summary.toTree (s : Summary) : Tree :=
  .object [
    ("openapi_version", s.version.getD .null),
    ("title", s.title.getD .null),
    ("description_excerpt", .string s.descriptionExcerpt),
    ("server_count", countTree s.serverCount),
    ("tag_count", countTree s.tagCount),
    ("path_count", countTree s.pathCount),
    ("schema_count", countTree s.schemaCount)]

def Check.toTree (c : Check) : Tree :=
  .object [
    ("category", .string c.category.name),
    ("identifier", .string c.identifier),
    ("status", .string c.status.name)]

def checksTree (checks : List Check) : Tree := .array (checks.map (·.toTree))

def Report.members (r : Report) : List (String × Tree) :=
  [("summary", r.summary.toTree), ("checks", checksTree r.checks)]

def Report.toTree (r : Report) : Tree := .object r.members

end ApiPresence

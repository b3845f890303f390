import ApiPresence.Tree.Decode

namespace ApiPresence

namespace FilePath

def parts (path : String) : List (List Char) := split [] path.toList
where
  split (part : List Char) : List Char → List (List Char)
    | [] => [part.reverse]
    | '/' :: rest => part.reverse :: split [] rest
    | c :: rest => split (c :: part) rest

/-- The last part that names something; slashes and single points behind it do not count. -/
def fileName? (path : String) : Option (List Char) :=
  let named := (parts path).filter fun part => part ≠ [] ∧ part ≠ ['.']
  named.getLast?.filter (· ≠ ['.', '.'])

/-- What follows the last point of a file's name; a point in front of the name does not count. -/
def extension? (path : String) : Option (List Char) :=
  (fileName? path).bind fun name =>
    let reversed := name.reverse
    match reversed.dropWhile (· ≠ '.') with
    | _ :: _ :: _ => some (reversed.takeWhile (· ≠ '.')).reverse
    | _ => none

end FilePath

inductive DocumentFormat where
  | yaml
  | json
  deriving DecidableEq, Repr

namespace DocumentFormat

def all : List DocumentFormat := [yaml, json]

def name : DocumentFormat → String
  | yaml => "yaml"
  | json => "json"

def label : DocumentFormat → String
  | yaml => "YAML"
  | json => "JSON"

def ofTree : Tree → Except Mismatch DocumentFormat :=
  Decode.variant (all.map fun f => (f.name, f))

/-- JSON behind the extension `json` in letters of any case, and YAML behind all others. -/
def ofPath (path : String) : DocumentFormat :=
  match FilePath.extension? path with
  | some extension =>
    if extension.map Char.toLower = ['j', 's', 'o', 'n'] then json else yaml
  | none => yaml

end DocumentFormat

end ApiPresence

import ApiPresence.FilePath
import ApiPresence.FileSystem

namespace ApiPresence

inductive FileNode where
  | file (content : ByteArray)
  | directory

/-- What stands below a working directory, by the names that lead there. -/
structure Directory where
  nodes : List (List String × FileNode)

namespace Directory

/-- The node at some names; a directory is there as soon as something is in it. -/
def node? (d : Directory) (names : List String) : Option FileNode :=
  match d.nodes.lookup names with
  | some node => some node
  | none =>
    if names = [] ∨ d.nodes.any (fun entry => names.isPrefixOf entry.1) then some .directory
    else none

/--
A place that a path leads to: below the working directory, or elsewhere, where nothing is known.
-/
inductive Place where
  | inside (names : List String)
  | outside
  deriving DecidableEq, Repr

def Place.node? (d : Directory) : Place → Option FileNode
  | inside names => d.node? names
  | outside => some .directory

def Place.enter (place : Place) (part : List Char) : Option Place :=
  match place with
  | inside names =>
    if part = [] ∨ part = ['.'] then some (inside names)
    else if part = ['.', '.'] then
      some (if names = [] then outside else inside names.dropLast)
    else some (inside (names ++ [String.ofList part]))
  | outside => if part ∈ [[], ['.'], ['.', '.']] then some outside else none

/-- Follows the parts of a path; each but the last has to lead to a directory. -/
def follow (d : Directory) (place : Place) : List (List Char) → Except IoError FileNode
  | [] =>
    match place.node? d with
    | some node => .ok node
    | none => .error .notFound
  | part :: parts =>
    match place.node? d with
    | none => .error .notFound
    | some (.file _) => .error .notDirectory
    | some .directory =>
      if 255 < (String.ofList part).utf8ByteSize then .error .nameTooLong
      else match place.enter part with
        | some place => follow d place parts
        | none => .error .notFound

def find (d : Directory) (path : String) : Except IoError FileNode :=
  if '\x00' ∈ path.toList then .error .zeroInName
  else if path = "" then .error .notFound
  else if 4096 ≤ path.utf8ByteSize then .error .nameTooLong
  else
    let start := if path.toList.head? = some '/' then Place.outside else .inside []
    d.follow start (FilePath.parts path)

/-- The octets of a file; a directory is found, but has none to be read. -/
def read (d : Directory) (path : String) : Except IoError ByteArray :=
  match d.find path with
  | .error fault => .error fault
  | .ok .directory => .error .isDirectory
  | .ok (.file content) => .ok content

def asFileSystem (d : Directory) : FileSystem where
  contains path := (d.find path).isOk
  read := d.read

end Directory
end ApiPresence

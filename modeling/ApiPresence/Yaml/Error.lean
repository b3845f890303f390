import ApiPresence.Mismatch
import ApiPresence.Yaml.Merge
import ApiPresence.Yaml.Printer

namespace ApiPresence.Yaml

inductive Segment where
  | item (index : Nat)
  | member (key : String)
  /-- The value of a key that is not a scalar. -/
  | unnamed
  deriving DecidableEq, Repr

/-- The way to a node, its last step first. -/
abbrev Path := List Segment

/-- The path in a message; a point stands for the whole document. -/
def Path.text : Path → String
  | [] => "."
  | .item index :: rest => Path.text rest ++ "[" ++ Nat.repr index ++ "]"
  | .member key :: rest => (if rest = [] then "" else Path.text rest ++ ".") ++ key
  | .unnamed :: rest => (if rest = [] then "" else Path.text rest ++ ".") ++ "?"

inductive NodeProblem where
  | mismatch (value : Mismatch)
  | duplicateKey (key : Value)

def NodeProblem.message : NodeProblem → String
  | mismatch value => value.message
  | duplicateKey key => "duplicate entry " ++ (match key with
    | .null => "with null key"
    | .bool true => "with key `true`"
    | .bool false => "with key `false`"
    | .number n => "with key " ++ String.ofList (numberText n)
    | .string s => "with key " ++ Text.quoted s
    | .sequence _ | .mapping _ | .tagged _ _ => "in YAML map")

inductive Error where
  | malformed (fault : SyntaxError)
  /-- A problem with a node, and its place once that is known. -/
  | node (problem : NodeProblem) (place : Option (Path × Mark))
  | unknownAnchor (mark : Mark)
  | recursionLimit (mark : Mark)
  | repetitionLimit
  | endOfStream
  | severalDocuments
  | merge (fault : MergeError)

namespace Error

def located (path : Path) (mark : Mark) : Error → Error
  | .node problem none => .node problem (some (path, mark))
  | e => e

def message : Error → String
  | .malformed fault => fault.message
  | .node problem none => problem.message
  | .node problem (some (path, mark)) =>
    (if path = [] then "" else path.text ++ ": ") ++ problem.message ++ mark.suffix
  | .unknownAnchor mark => "unknown anchor" ++ mark.suffix
  | .recursionLimit mark => "recursion limit exceeded" ++ mark.suffix
  | .repetitionLimit => "repetition limit exceeded"
  | .endOfStream => "EOF while parsing a value"
  | .severalDocuments =>
    "deserializing from YAML containing more than one document is not supported"
  | .merge fault => fault.message

end Error

def mismatch (m : Mismatch) : Error := .node (.mismatch m) none

end ApiPresence.Yaml

import ApiPresence.Tree

namespace ApiPresence.Tree

/-- The value of a key among members; of one key the first member counts. -/
def member? (key : String) : List (String × Tree) → Option Tree
  | [] => none
  | (k, value) :: rest => if k = key then some value else member? key rest

def get? (node : Tree) (key : String) : Option Tree :=
  match node with
  | .object members => member? key members
  | _ => none

/--
The node that the segments lead to through nested objects; no segments lead to the node itself.
-/
def lookup (node : Tree) : (segments : List String) → Option Tree
  | [] => some node
  | segment :: segments =>
    match node.get? segment with
    | some child => lookup child segments
    | none => none

def mappingAt (node : Tree) (segments : List String) : Option (List (String × Tree)) :=
  match node.lookup segments with
  | some (.object members) => some members
  | _ => none

def sequenceAt (node : Tree) (segments : List String) : Option (List Tree) :=
  match node.lookup segments with
  | some (.array items) => some items
  | _ => none

def stringAt (node : Tree) (segments : List String) : String :=
  match node.lookup segments with
  | some (.string s) => s
  | _ => ""

def isScalar : Tree → Bool
  | .bool _ | .number _ | .string _ => true
  | .null | .array _ | .object _ => false

/-- The scalar at a place; an explicit null counts as absent. -/
def scalarAt (node : Tree) (segments : List String) : Option Tree :=
  (node.lookup segments).filter isScalar

/-- Whether the object at a place has a key, whatever its value. -/
def hasKeyAt (node : Tree) (segments : List String) (key : String) : Bool :=
  match node.mappingAt segments with
  | some members => members.any fun member => member.1 == key
  | none => false

def mappingLenAt (node : Tree) (segments : List String) : Nat :=
  ((node.mappingAt segments).getD []).length

def sequenceLenAt (node : Tree) (segments : List String) : Nat :=
  ((node.sequenceAt segments).getD []).length

end ApiPresence.Tree

import ApiPresence.Json.Printer
import ApiPresence.Mismatch
import ApiPresence.Tree.Lookup

namespace ApiPresence

def Tree.found : Tree → Found
  | .null => .null
  | .bool value => .boolean value
  | .number (.whole value _) => .whole value
  | .number (.float value) => .float (String.ofList (Json.numberText (.float value)))
  | .string value => .string value
  | .array _ => .sequence
  | .object _ => .map

namespace Decode

def wrongType (tree : Tree) (expected : String) : Except Mismatch α :=
  .error (.wrongType tree.found expected)

def string : Tree → Except Mismatch String
  | .string value => .ok value
  | tree => wrongType tree "a string"

def count : Tree → Except Mismatch Nat
  | .number (.whole value h) =>
    if 0 ≤ value then .ok value.toNat
    else .error (.wrongValue (Tree.number (.whole value h)).found "usize")
  | tree => wrongType tree "usize"

def optional : Tree → Option Tree
  | .null => none
  | tree => some tree

/--
One of the known names: a string, or an object with the name as its only key and null as its value.
-/
def variant (known : List (String × α)) (tree : Tree) : Except Mismatch α :=
  match tree with
  | .string name => find name
  | .object [] => .error (.wrongValue .map "map with a single key")
  | .object [(name, value)] => do
    let found ← find name
    match value with
    | .null => .ok found
    | value => wrongType value "unit"
  | .object _ => .error (.wrongValue .map "map with a single key")
  | tree => wrongType tree "string or map"
where
  find (name : String) : Except Mismatch α :=
    match known.lookup name with
    | some value => .ok value
    | none => .error (.unknownVariant name (known.map Prod.fst))

/-- The items of a sequence, up to the first that is none. -/
def items (item : Tree → Except Mismatch α) : List Tree → Except Mismatch (List α)
  | [] => .ok []
  | tree :: rest => do
    let value ← item tree
    let values ← items item rest
    .ok (value :: values)

def sequence (item : Tree → Except Mismatch α) : Tree → Except Mismatch (List α)
  | .array trees => items item trees
  | tree => wrongType tree "a sequence"

def checkMembers (fault? : String → Tree → Option Mismatch) :
    List (String × Tree) → Except Mismatch Unit
  | [] => .ok ()
  | (key, value) :: rest =>
    match fault? key value with
    | some fault => .error fault
    | none => checkMembers fault? rest

def fault? (decode : Tree → Except Mismatch α) (tree : Tree) : Option Mismatch :=
  match decode tree with
  | .ok _ => none
  | .error fault => some fault

def field (decode : Tree → Except Mismatch α) (members : List (String × Tree)) (name : String) :
    Except Mismatch α :=
  match Tree.member? name members with
  | some tree => decode tree
  | none => .error (.missingField name)

def entry (decode : Tree → Except Mismatch α) (trees : List Tree) (index : Nat)
    (expected : String) : Except Mismatch α :=
  match trees[index]? with
  | some tree => decode tree
  | none => .error (.wrongLength index expected)

/-- A sequence that stands for a structure has an entry for each field and no more. -/
def noMore (trees : List Tree) (size : Nat) : Except Mismatch Unit :=
  if trees.length ≤ size then .ok ()
  else .error (.wrongLength trees.length "fewer elements in array")

end Decode
end ApiPresence

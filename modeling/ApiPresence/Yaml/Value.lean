import ApiPresence.Number

namespace ApiPresence.Yaml

/-- A node of a document: keys are any values, and a tag of the document's own wraps a value. -/
inductive Value where
  | null
  | bool (value : Bool)
  | number (value : Number)
  | string (value : String)
  | sequence (items : List Value)
  | mapping (entries : List (Value × Value))
  | tagged (name : String) (value : Value)
  deriving Inhabited

namespace Value

mutual

/--
Equality of keys: the order of a mapping's entries does not matter, and floats agree by value.
-/
def same : Value → Value → Bool
  | .null, .null => true
  | .bool a, .bool b => a == b
  | .number a, .number b => a.sameValue b
  | .string a, .string b => a == b
  | .sequence a, .sequence b => sameItems a b
  | .mapping a, .mapping b => a.length == b.length && sameEntries a b
  | .tagged s a, .tagged t b => s == t && same a b
  | _, _ => false

def sameItems : List Value → List Value → Bool
  | [], [] => true
  | a :: as, b :: bs => same a b && sameItems as bs
  | _, _ => false

def sameEntries : List (Value × Value) → List (Value × Value) → Bool
  | [], _ => true
  | (k, v) :: rest, others =>
    others.any (fun entry => same k entry.1 && same v entry.2) && sameEntries rest others

end

def findEntry (key : Value) (entries : List (Value × Value)) : Option (Value × Value) :=
  entries.find? fun entry => entry.1.same key

def hasKey (key : Value) (entries : List (Value × Value)) : Bool := (findEntry key entries).isSome

mutual

/-- How deep values stand in each other; keys do not count. -/
def depth : Value → Nat
  | .sequence items => depthItems items + 1
  | .mapping entries => depthEntries entries + 1
  | .tagged _ value => value.depth + 1
  | .null | .bool _ | .number _ | .string _ => 0

def depthItems : List Value → Nat
  | [] => 0
  | item :: rest => max item.depth (depthItems rest)

def depthEntries : List (Value × Value) → Nat
  | [] => 0
  | (_, value) :: rest => max value.depth (depthEntries rest)

end

end Value
end ApiPresence.Yaml

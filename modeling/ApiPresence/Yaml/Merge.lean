import ApiPresence.Yaml.Value

namespace ApiPresence.Yaml

inductive MergeError where
  | scalar
  | tagged
  | scalarElement
  | sequenceElement
  deriving DecidableEq, Repr

def MergeError.message : MergeError → String
  | scalar => "expected a mapping or list of mappings for merging, but found scalar"
  | tagged => "unexpected tagged value in merge"
  | scalarElement => "expected a mapping for merging, but found scalar"
  | sequenceElement => "expected a mapping for merging, but found sequence"

namespace Value

def isMergeKey : Value → Bool
  | .string s => s == "<<"
  | _ => false

/-- Adds an entry unless its key is there already. -/
def addEntry (entries : List (Value × Value)) (entry : Value × Value) : List (Value × Value) :=
  if hasKey entry.1 entries then entries else entries ++ [entry]

def addEntries (entries source : List (Value × Value)) : List (Value × Value) :=
  source.foldl addEntry entries

/-- Takes out the merge key, the last entry filling its place, and gives its value. -/
def takeMerge : List (Value × Value) → Option (Value × List (Value × Value))
  | [] => none
  | (key, value) :: rest =>
    if key.isMergeKey then
      some (value, match rest.getLast? with
        | some last => last :: rest.dropLast
        | none => [])
    else (takeMerge rest).map fun (found, rest) => (found, (key, value) :: rest)

/-- The sources that a list names, up to the first that is no mapping. -/
def sources : List Value → Except MergeError (List (List (Value × Value)))
  | [] => .ok []
  | .mapping entries :: rest => do
    let more ← sources rest
    .ok (entries :: more)
  | .sequence _ :: _ => .error .sequenceElement
  | .tagged _ _ :: _ => .error .tagged
  | _ :: _ => .error .scalarElement

/-- A mapping with its own merge key followed once; what a source holds is taken as it is. -/
def mergeOwn (entries : List (Value × Value)) : Except MergeError (List (Value × Value)) :=
  match takeMerge entries with
  | none => .ok entries
  | some (.mapping source, rest) => .ok (addEntries rest source)
  | some (.sequence items, rest) => do
    let found ← sources items
    .ok (found.foldl addEntries rest)
  | some (.tagged _ _, _) => .error .tagged
  | some (_, _) => .error .scalar

/-- Follows merge keys down to a depth; of several faults the last one below a node counts. -/
def resolveWithin : (depth : Nat) → Value → Except MergeError Value
  | 0, value => .ok value
  | depth + 1, .sequence items => do
    let items ← items.foldrM (fun item done => do
      let item ← resolveWithin depth item
      .ok (item :: done)) []
    .ok (.sequence items)
  | depth + 1, .mapping entries => do
    let entries ← mergeOwn entries
    let entries ← entries.foldrM (fun (key, value) done => do
      let value ← resolveWithin depth value
      .ok ((key, value) :: done)) []
    .ok (.mapping entries)
  | depth + 1, .tagged name value => do
    let value ← resolveWithin depth value
    .ok (.tagged name value)
  | _ + 1, value => .ok value

def resolve (value : Value) : Except MergeError Value := resolveWithin value.depth value

end Value
end ApiPresence.Yaml

import ApiPresence.Json.Printer
import ApiPresence.Yaml.Value

namespace ApiPresence.Yaml

inductive ConversionError where
  | keyNotString
  | keyNotFinite
  deriving DecidableEq, Repr

def ConversionError.message : ConversionError → String
  | keyNotString => "key must be a string"
  | keyNotFinite => "float key must be finite (got NaN or +/-inf)"

namespace Value

/-- The text of a key: strings, and the texts of bools and finite numbers. -/
def keyText : Value → Except ConversionError String
  | .string s => .ok s
  | .bool true => .ok "true"
  | .bool false => .ok "false"
  | .number (.float (.infinite _)) => .error .keyNotFinite
  | .number (.float .nan) => .error .keyNotFinite
  | .number n => .ok (String.ofList (Json.numberText n))
  | .null | .sequence _ | .mapping _ | .tagged _ _ => .error .keyNotString

mutual

/--
The tree of a value: numbers without a finite value are null, and a tag is the only key of an
object.
-/
def toTree : Value → Except ConversionError Tree
  | .null => .ok .null
  | .bool value => .ok (.bool value)
  | .number (.float (.infinite _)) => .ok .null
  | .number (.float .nan) => .ok .null
  | .number value => .ok (.number value)
  | .string value => .ok (.string value)
  | .sequence items => do
    let items ← toTrees items
    .ok (.array items)
  | .mapping entries => do
    let entries ← toEntries entries
    .ok (.ofEntries entries)
  | .tagged name value => do
    let tree ← toTree value
    .ok (.object [("!" ++ name, tree)])

def toTrees : List Value → Except ConversionError (List Tree)
  | [] => .ok []
  | item :: rest => do
    let tree ← toTree item
    let trees ← toTrees rest
    .ok (tree :: trees)

/-- The entries with the texts of their keys, which need not differ as the keys do. -/
def toEntries : List (Value × Value) → Except ConversionError (List (String × Tree))
  | [] => .ok []
  | (key, value) :: rest => do
    let text ← key.keyText
    let tree ← toTree value
    let entries ← toEntries rest
    .ok ((text, tree) :: entries)

end

end Value
end ApiPresence.Yaml

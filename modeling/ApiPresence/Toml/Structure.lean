import ApiPresence.Mismatch
import ApiPresence.Toml.Error
import ApiPresence.Toml.Reader

namespace ApiPresence.Toml

open Text (octets)

structure Refusal where
  reason : String
  span : Option Span
  deriving DecidableEq, Repr

namespace Refusal

def located (span : Option Span) (r : Refusal) : Refusal := { r with span := r.span.or span }

end Refusal

def Item.found : Item → Found
  | .scalar (.string value) _ => .string value
  | .scalar (.whole value) _ => .whole value
  | .scalar (.float value) _ => .float value.fullText
  | .scalar (.boolean value) _ => .boolean value
  | .scalar .moment _ => .map
  | .array _ _ | .tables _ => .sequence
  | .table _ _ _ => .map

def wrongType (item : Item) (expected : String) : Except Refusal α :=
  .error ⟨(Mismatch.wrongType item.found expected).message, item.span?⟩

def readText (expected : String) : Item → Except Refusal String
  | .scalar (.string value) _ => .ok value
  | item => wrongType item expected

def readBool (expected : String) : Item → Except Refusal Bool
  | .scalar (.boolean value) _ => .ok value
  | item => wrongType item expected

/-- What stands under the name of a variant has to be an empty table or array. -/
def checkUnit : Item → Except Refusal Unit
  | .tables [] => .ok ()
  | item@(.tables _) => .error ⟨"expected empty array", item.span?⟩
  | .array [] _ | .table _ _ [] => .ok ()
  | item@(.array _ _) | item@(.table _ _ _) => .error ⟨"expected empty table", item.span?⟩
  | item => .error ⟨"expected table, found " ++ item.typeName, item.span?⟩

/-- One of the known names: a string, or a table with the name as its only key. -/
def readVariant (known : List (String × α)) (item : Item) : Except Refusal α :=
  match item with
  | .scalar (.string name) _ => find name item.span?
  | .table _ _ [] => .error ⟨"wanted exactly 1 element, found 0 elements", item.span?⟩
  | .table _ _ [(key, value)] => do
    let found ← find key.name key.span
    checkUnit value
    .ok found
  | .table _ _ _ => .error ⟨"wanted exactly 1 element, more than 1 element", item.span?⟩
  | _ => .error ⟨"wanted string or table", item.span?⟩
where
  find (name : String) (span : Option Span) : Except Refusal α :=
    match known.lookup name with
    | some value => .ok value
    | none => .error ⟨(Mismatch.unknownVariant name (known.map Prod.fst)).message, span⟩

structure Field (σ : Type) where
  name : String
  read : σ → Item → Except Refusal σ

def readFields (fields : List (Field σ)) : σ → Entries → Except Refusal σ
  | s, [] => .ok s
  | s, (key, item) :: entries =>
    match fields.find? (·.name = key.name) with
    | none => readFields fields s entries
    | some field => do
      let s ← (field.read s item).mapError (.located (item.span?.or key.span))
      readFields fields s entries

/-- A structure from its fields in their order; what is left over does not matter. -/
def readElements : List (Field σ) → σ → List Item → Except Refusal σ
  | field :: fields, s, item :: items => do
    let s ← (field.read s item).mapError (.located item.span?)
    readElements fields s items
  | _, s, _ => .ok s

/-- A structure from a table or from an array; a date has no field that is known. -/
def readStructure (expected : String) (fields : List (Field σ)) (start : σ) (item : Item) :
    Except Refusal σ :=
  (match item with
  | .table _ _ entries => readFields fields start entries
  | .array items _ | .tables items => readElements fields start items
  | .scalar .moment _ => .ok start
  | item => wrongType item expected).mapError (.located item.span?)

def parse (fields : List (Field σ)) (start : σ) (content : String) : Except Error σ := do
  let text := content.toList
  let entries ← (readEntries text).mapError (Error.ofFault text)
  (readFields fields start entries).mapError fun refusal =>
    ⟨text, refusal.span.getD ⟨octets text, 0⟩, refusal.reason⟩

end ApiPresence.Toml

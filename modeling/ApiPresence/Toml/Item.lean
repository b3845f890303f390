import ApiPresence.Number
import ApiPresence.Toml.Problem

namespace ApiPresence.Toml

inductive Scalar where
  | string (value : String)
  | whole (value : Int)
  | float (value : Binary64)
  | boolean (value : Bool)
  /-- A date, a time of day or both; which one does not matter here. -/
  | moment
  deriving DecidableEq, Repr

def Scalar.typeName : Scalar → String
  | string _ => "string"
  | whole _ => "integer"
  | float _ => "float"
  | boolean _ => "boolean"
  | moment => "datetime"

structure Key where
  name : String
  span : Span
  deriving DecidableEq, Repr

/-- How a table has come about, which decides who may add to it. -/
inductive Origin where
  /-- A header names it. -/
  | header
  /-- The header of a table inside it names it. -/
  | parent
  /-- Keys with dots lead into it. -/
  | dotted
  /-- It stands in braces. -/
  | braces
  /-- Keys with dots that stand in braces lead into it. -/
  | dottedInBraces
  deriving DecidableEq, Repr

inductive Item where
  | scalar (value : Scalar) (span : Span)
  | array (items : List Item) (span : Span)
  | table (origin : Origin) (span : Option Span) (entries : List (Key × Item))
  /-- The tables of one name whose headers stand in double brackets. -/
  | tables (items : List Item)

namespace Item

/-- The stretch of one item, none for a table that nothing but its entries names. -/
def ownSpan? : Item → Option Span
  | scalar _ span => some span
  | array _ span => some span
  | table _ span _ => span
  | tables _ => none

/-- Where an item stands; tables of one name stand from the first to the last. -/
def span? : Item → Option Span
  | tables items =>
    match items.head?.bind ownSpan?, items.getLast?.bind ownSpan? with
    | some first, some last => some (first.through last)
    | _, _ => none
  | item => item.ownSpan?

def typeName : Item → String
  | scalar value _ => value.typeName
  | array _ _ => "array"
  | table .braces _ _ | table .dottedInBraces _ _ => "inline table"
  | table _ _ _ => "table"
  | tables _ => "array of tables"

end Item
end ApiPresence.Toml

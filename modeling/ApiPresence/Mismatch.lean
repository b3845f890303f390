import ApiPresence.Number.Shortest
import ApiPresence.Text

namespace ApiPresence

inductive Found where
  | null
  | unit
  | boolean (value : Bool)
  | whole (value : Int)
  /-- A float by its text. -/
  | float (text : String)
  | string (value : String)
  | sequence
  | map
  /-- Anything else, by its description. -/
  | other (description : String)
  deriving DecidableEq, Repr

def Found.message : Found → String
  | .null => "null"
  | .unit => "unit value"
  | .boolean true => "boolean `true`"
  | .boolean false => "boolean `false`"
  | .whole value => "integer `" ++ String.ofList (FloatNotation.wholeOf value) ++ "`"
  | .float text => "floating point `" ++ text ++ "`"
  | .string value => "string " ++ Text.quoted value
  | .sequence => "sequence"
  | .map => "map"
  | .other description => description

inductive Mismatch where
  | wrongType (found : Found) (expected : String)
  | wrongValue (found : Found) (expected : String)
  | wrongLength (length : Nat) (expected : String)
  | unknownVariant (name : String) (known : List String)
  | missingField (name : String)
  | duplicateField (name : String)
  deriving DecidableEq, Repr

namespace Mismatch

def backquoted (s : String) : String := "`" ++ s ++ "`"

/-- The names that would do: both of two, or a list. -/
def oneOf : List String → String
  | [] => "there are no variants"
  | [a] => "expected " ++ backquoted a
  | [a, b] => "expected " ++ backquoted a ++ " or " ++ backquoted b
  | names => "expected one of " ++ String.intercalate ", " (names.map backquoted)

def message : Mismatch → String
  | .wrongType found expected => "invalid type: " ++ found.message ++ ", expected " ++ expected
  | .wrongValue found expected => "invalid value: " ++ found.message ++ ", expected " ++ expected
  | .wrongLength length expected =>
    "invalid length " ++ String.ofList (FloatNotation.digitsOf length) ++ ", expected " ++ expected
  | .unknownVariant name known => "unknown variant " ++ backquoted name ++ ", " ++ oneOf known
  | .missingField name => "missing field " ++ backquoted name
  | .duplicateField name => "duplicate field " ++ backquoted name

end Mismatch
end ApiPresence

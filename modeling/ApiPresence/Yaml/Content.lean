import ApiPresence.Yaml.Document

namespace ApiPresence.Yaml

/-- What a scalar holds once its tag and its style are taken into account. -/
inductive Content where
  | null
  | bool (value : Bool)
  | number (value : Number)
  | wide (value : Int)
  | string (value : List Char)
  deriving DecidableEq

namespace Content

def ofResolved (text : List Char) : Resolved → Content
  | .null => .null
  | .bool value => .bool value
  | .number value => .number value
  | .wide value => .wide value
  | .string => .string text

def whole? (text : List Char) : Option Content :=
  (Yaml.whole? text).bind fun value =>
    if isLong value then some (.number (.ofInt value))
    else if isWide value then some (.wide value)
    else none

def required (text : List Char) (expected : String) : Option Content → Except Mismatch Content
  | some content => .ok content
  | none => .error (.wrongValue (.string (String.ofList text)) expected)

/-- The content of a scalar, whose tag does not count once it has been dealt with. -/
def ofScalar (tag : Option Tag) (tagDone : Bool) (text : List Char) (style : ScalarStyle) :
    Except Mismatch Content :=
  let plain := ofResolved text (resolve text)
  match if tagDone then none else tag with
  | some tag =>
    if tag = .standard "bool" then required text "a boolean" ((bool? text).map .bool)
    else if tag = .standard "int" then required text "an integer" (whole? text)
    else if tag = .standard "float" then
      required text "a float" ((float? text).map fun value => .number (.float value))
    else if tag = .standard "null" then
      required text "null" (if isNull text then some .null else none)
    else if tag.text.head? = some '!' ∧ style = .plain then .ok plain
    else .ok (.string text)
  | none => if style = .plain then .ok plain else .ok (.string text)

def found : Content → Found
  | .null => .unit
  | .bool value => .boolean value
  | .number (.whole value _) => .whole value
  | .number (.float value) => .float value.fullText
  | .wide value =>
    .other ("integer `" ++ String.ofList (FloatNotation.wholeOf value) ++ "` as "
      ++ (if value < 0 then "i128" else "u128"))
  | .string value => .string (String.ofList value)

end Content
end ApiPresence.Yaml

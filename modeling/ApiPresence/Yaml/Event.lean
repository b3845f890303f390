import ApiPresence.Yaml.Tag
import ApiPresence.Yaml.Token

namespace ApiPresence.Yaml

structure Properties where
  anchor : Option (List Char)
  tag : Option Tag
  deriving DecidableEq, Repr, Inhabited

inductive EventKind where
  | documentStart
  | documentEnd
  | streamEnd
  | aliasOf (name : List Char)
  | scalar (properties : Properties) (text : List Char) (style : ScalarStyle)
  | sequenceStart (properties : Properties)
  | sequenceEnd
  | mappingStart (properties : Properties)
  | mappingEnd
  deriving DecidableEq, Repr, Inhabited

structure Event where
  kind : EventKind
  mark : Mark
  deriving DecidableEq, Repr, Inhabited

/-- The events of a text up to its end, or up to a place where it breaks the grammar. -/
structure EventStream where
  events : List Event
  fault : Option SyntaxError
  deriving DecidableEq, Repr, Inhabited

def Properties.empty : Properties := ⟨none, none⟩

def Event.emptyScalar (mark : Mark) : Event := ⟨.scalar .empty [] .plain, mark⟩

end ApiPresence.Yaml

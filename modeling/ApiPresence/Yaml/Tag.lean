namespace ApiPresence.Yaml

/-- The text of a tag; octets that are given by number need not make up characters. -/
structure Tag where
  text : List Char
  wellFormed : Bool
  deriving DecidableEq, Repr, Inhabited

namespace Tag

def append (s t : Tag) : Tag := ⟨s.text ++ t.text, s.wellFormed && t.wellFormed⟩

instance : Append Tag := ⟨append⟩

def ofChars (text : List Char) : Tag := ⟨text, true⟩

/--
The tag of some characters, or octets that are none, up to a zero character, where a tag ends.
-/
def ofWritten (written : List (Option Char)) : Tag :=
  let characters := written.takeWhile (· ≠ some '\x00')
  ⟨characters.map (·.getD '\ufffd'), characters.all Option.isSome⟩

def standardStem : List Char := "tag:yaml.org,2002:".toList

def standard (name : String) : Tag := ofChars (standardStem ++ name.toList)

/-- The name of a tag that a document defines for itself; a lone bang is a name. -/
def localName? (t : Tag) : Option String :=
  match t.text with
  | '!' :: rest =>
    if !t.wellFormed then none
    else some (String.ofList (if rest = [] then ['!'] else rest))
  | _ => none

def withoutBang (name : String) : String :=
  match name.toList with
  | '!' :: c :: rest => String.ofList (c :: rest)
  | _ => name

end Tag
end ApiPresence.Yaml

import ApiPresence.Json.Reader
import ApiPresence.Tree.Decode

namespace ApiPresence.Json

def unwanted (m : Mismatch) : Cause := .unwanted m.message

/-- Reads a value that is not of the type wanted, as far as its type takes to tell. -/
def wrongType (expected : String) (text : List Char) : Except Fault α :=
  match text with
  | '[' :: _ => .error (.before (unwanted (.wrongType .sequence expected)) text)
  | '{' :: _ => .error (.before (unwanted (.wrongType .map expected)) text)
  | _ => do
    let (tree, rest) ← readValue 1 depthLimit text
    .error (.before (unwanted (.wrongType tree.found expected)) rest)

def readTextValue (expected : String) (text : List Char) : Except Fault (String × List Char) :=
  match skipBlanks text with
  | [] => .error (.before .eofInValue [])
  | '"' :: rest => readString rest
  | rest => wrongType expected rest

def readBool (text : List Char) : Except Fault (Bool × List Char) :=
  match skipBlanks text with
  | [] => .error (.before .eofInValue [])
  | 't' :: rest => do
    let rest ← readWord ['r', 'u', 'e'] rest
    .ok (true, rest)
  | 'f' :: rest => do
    let rest ← readWord ['a', 'l', 's', 'e'] rest
    .ok (false, rest)
  | rest => wrongType "a boolean" rest

def readOptional (read : List Char → Except Fault (α × List Char)) (text : List Char) :
    Except Fault (Option α × List Char) :=
  match skipBlanks text with
  | 'n' :: rest => do
    let rest ← readWord ['u', 'l', 'l'] rest
    .ok (none, rest)
  | _ => do
    let (value, rest) ← read text
    .ok (some value, rest)

def readUnit (text : List Char) : Except Fault (List Char) :=
  match skipBlanks text with
  | [] => .error (.before .eofInValue [])
  | 'n' :: rest => readWord ['u', 'l', 'l'] rest
  | rest => wrongType "unit" rest

def findVariant (known : List (String × α)) (name : String) (rest : List Char) : Except Fault α :=
  match known.lookup name with
  | some value => .ok value
  | none => .error (.before (unwanted (.unknownVariant name (known.map Prod.fst))) rest)

/--
One of the known names: a string, or an object with the name as its only key and null as its value.
-/
def readVariant (known : List (String × α)) (text : List Char) : Except Fault (α × List Char) :=
  match skipBlanks text with
  | [] => .error (.before .eofInValue [])
  | '"' :: rest => do
    let (name, rest) ← readString rest
    let value ← findVariant known name rest
    .ok (value, rest)
  | '{' :: rest => do
    let (name, rest) ← readTextValue "variant identifier" rest
    let value ← findVariant known name rest
    let rest ← readColon rest
    let rest ← readUnit rest
    match skipBlanks rest with
    | '}' :: rest => .ok (value, rest)
    | [] => .error (.before .eofInObject [])
    | rest => .error (.before .expectedValue rest)
  | rest => .error (.at .expectedValue rest)

/-- A field of a structure and how it is read into a draft of one. -/
structure Field (σ : Type) where
  name : String
  isSet : σ → Bool
  read : σ → List Char → Except Fault (σ × List Char)

/-- Where a text is left that is given up behind a key: past blanks and the end of the object. -/
def givenUp (rest : List Char) : List Char :=
  match skipBlanks rest with
  | '}' :: rest => rest
  | rest => rest

def readMembers (fields : List (Field σ)) : (fuel : Nat) → (first : Bool) → σ → List Char →
    Except Fault (σ × List Char)
  | 0, _, _, text => .error (.before .eofInObject text)
  | fuel + 1, first, s, text => do
    match ← nextKey first text with
    | none => .ok (s, pastClosing text)
    | some rest =>
      let (name, rest) ← readString rest
      match fields.find? (·.name = name) with
      | none =>
        let rest ← readColon rest
        let rest ← skipValue (2 * rest.length + 1) rest
        readMembers fields fuel false s rest
      | some field =>
        if field.isSet s then
          .error (.before (unwanted (.duplicateField name)) (givenUp rest))
        else
          let rest ← readColon rest
          let (s, rest) ← field.read s rest
          readMembers fields fuel false s rest

def readArrayEnd (text : List Char) : Except Fault (List Char) :=
  match skipBlanks text with
  | [] => .error (.before .eofInList [])
  | ']' :: rest => .ok rest
  | ',' :: rest =>
    match skipBlanks rest with
    | [] => .error (.before .trailingCharacters [])
    | ']' :: rest => .error (.at .trailingComma (']' :: rest))
    | rest => .error (.at .trailingCharacters rest)
  | rest => .error (.at .trailingCharacters rest)

/-- The items of an array, which are the fields in their order; the last ones may be left out. -/
def readElements : List (Field σ) → (first : Bool) → σ → List Char → Except Fault (σ × List Char)
  | [], _, s, text => do
    let rest ← readArrayEnd text
    .ok (s, rest)
  | field :: fields, first, s, text => do
    match ← nextItem first text with
    | none => .ok (s, pastClosing text)
    | some rest =>
      let (s, rest) ← field.read s rest
      readElements fields false s rest

def readStructure (expected : String) (fields : List (Field σ)) (start : σ) (text : List Char) :
    Except Fault (σ × List Char) :=
  match skipBlanks text with
  | [] => .error (.before .eofInValue [])
  | '[' :: rest => readElements fields true start rest
  | '{' :: rest => readMembers fields (rest.length + 1) true start rest
  | rest => wrongType expected rest

def readDocument (read : List Char → Except Fault (α × List Char)) (content : String) :
    Except Error α :=
  (do
    let (value, rest) ← read content.toList
    readEnd rest
    .ok value : Except Fault α).mapError (Error.ofFault content.toList)

end ApiPresence.Json

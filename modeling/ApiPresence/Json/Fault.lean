import ApiPresence.Text

namespace ApiPresence.Json

open Text (octets)

inductive Cause where
  | eofInList
  | eofInObject
  | eofInString
  | eofInValue
  | expectedColon
  | expectedListCommaOrEnd
  | expectedObjectCommaOrEnd
  | expectedIdent
  | expectedValue
  | invalidEscape
  | invalidNumber
  | numberOutOfRange
  | controlCharacter
  | keyNotString
  | loneSurrogate
  | trailingComma
  | trailingCharacters
  | unexpectedEndOfHexEscape
  | recursionLimit
  /-- The text is well formed, but its value is not the one wanted. -/
  | unwanted (message : String)
  deriving DecidableEq, Repr

def Cause.message : Cause → String
  | .eofInList => "EOF while parsing a list"
  | .eofInObject => "EOF while parsing an object"
  | .eofInString => "EOF while parsing a string"
  | .eofInValue => "EOF while parsing a value"
  | .expectedColon => "expected `:`"
  | .expectedListCommaOrEnd => "expected `,` or `]`"
  | .expectedObjectCommaOrEnd => "expected `,` or `\x7d`"
  | .expectedIdent => "expected ident"
  | .expectedValue => "expected value"
  | .invalidEscape => "invalid escape"
  | .invalidNumber => "invalid number"
  | .numberOutOfRange => "number out of range"
  | .controlCharacter => "control character (\\u0000-\\u001F) found while parsing a string"
  | .keyNotString => "key must be a string"
  | .loneSurrogate => "lone leading surrogate in hex escape"
  | .trailingComma => "trailing comma"
  | .trailingCharacters => "trailing characters"
  | .unexpectedEndOfHexEscape => "unexpected end of hex escape"
  | .recursionLimit => "recursion limit exceeded"
  | .unwanted message => message

/-- A cause with the number of octets that were still unread when it arose. -/
structure Fault where
  cause : Cause
  unread : Nat
  deriving DecidableEq, Repr

def Fault.before (cause : Cause) (rest : List Char) : Fault := ⟨cause, octets rest⟩

/-- A fault at the next octet, which counts as read. -/
def Fault.at (cause : Cause) (rest : List Char) : Fault := ⟨cause, octets rest - 1⟩

/-- A line and a column in octets, both counted up to a place in a text. -/
structure Location where
  line : Nat
  column : Nat
  deriving DecidableEq, Repr

def Location.advance (here : Location) : (text : List Char) → (count : Nat) → Location
  | [], _ => here
  | c :: rest, count =>
    if count = 0 then here
    else if c = '\n' then advance ⟨here.line + 1, 0⟩ rest (count - 1)
    else if count < c.utf8Size then ⟨here.line, here.column + count⟩
    else advance ⟨here.line, here.column + c.utf8Size⟩ rest (count - c.utf8Size)

structure Error where
  cause : Cause
  location : Location
  deriving DecidableEq, Repr

def Error.ofFault (text : List Char) (fault : Fault) : Error :=
  ⟨fault.cause, Location.advance ⟨1, 0⟩ text (octets text - fault.unread)⟩

def Error.message (e : Error) : String :=
  e.cause.message ++ " at line " ++ toString e.location.line ++ " column "
    ++ toString e.location.column

end ApiPresence.Json

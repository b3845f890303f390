import ApiPresence.Toml.Lexeme.Moment
import ApiPresence.Toml.Item

namespace ApiPresence.Toml

open Text (isDigit isDigitOf digits?)

/-- The digits of a run after its first one; underscores may stand between two digits. -/
def readMoreDigits (isDigit : Char → Bool) : (fuel : Nat) → Reader (List Char)
  | fuel + 1, c :: rest =>
    if isDigit c then do
      let (digits, rest) ← readMoreDigits isDigit fuel rest
      .ok (c :: digits, rest)
    else if c = '_' then
      if rest.head?.any isDigit then readMoreDigits isDigit fuel rest
      else .error (.before rest (.wanted ["digit"]))
    else .ok ([], c :: rest)
  | _, rest => .ok ([], rest)

def readDigits (isDigit : Char → Bool) : Reader (List Char) := fun text =>
  if text.head?.any isDigit then readMoreDigits isDigit text.length text
  else .error (.before text .unknown)

def readSign : List Char → Bool × List Char
  | '+' :: rest => (false, rest)
  | '-' :: rest => (true, rest)
  | rest => (false, rest)

/-- A sign and decimal digits, of which a zero stands alone. -/
structure Whole where
  negative : Bool
  digits : List Char
  deriving DecidableEq, Repr

def readWhole : Reader Whole := fun text =>
  let (negative, unsigned) := readSign text
  match unsigned with
  | '0' :: rest => .ok (⟨negative, ['0']⟩, rest)
  | c :: _ =>
    if isDigit c then do
      let (digits, rest) ← (readDigits isDigit unsigned).mapError (.within "integer")
      .ok (⟨negative, digits⟩, rest)
    else .error (.absent unsigned (.invalid "integer"))
  | [] => .error (.absent [] (.invalid "integer"))

def digitsValue (base : Nat) (digits : List Char) : Nat := (digits? base digits).getD 0

def checkWhole (value : Int) : Except Cause Int :=
  if 0x8000000000000000 ≤ value then .error .tooLarge
  else if value < -0x8000000000000000 then .error .tooSmall
  else .ok value

/-- What follows the whole digits of a float: a fraction, an exponent or both. -/
structure Tail where
  fraction : List Char
  exponent : Int
  deriving DecidableEq, Repr

def readExponent : Reader Int := fun text => do
  let (negative, rest) := readSign text
  let (digits, rest) ← readDigits isDigit rest
  let size : Int := digitsValue 10 digits
  .ok (if negative then -size else size, rest)

def readTail (text : List Char) : Except Fault (Option (Tail × List Char)) :=
  match text with
  | '.' :: rest => do
    let (fraction, rest) ← (readDigits isDigit rest).mapError (.orWanted ["digit"])
    match rest with
    | c :: after =>
      if c = 'e' ∨ c = 'E' then
        let (exponent, rest) ← readExponent after
        .ok (some (⟨fraction, exponent⟩, rest))
      else .ok (some (⟨fraction, 0⟩, rest))
    | [] => .ok (some (⟨fraction, 0⟩, []))
  | c :: rest =>
    if c = 'e' ∨ c = 'E' then do
      let (exponent, rest) ← readExponent rest
      .ok (some (⟨[], exponent⟩, rest))
    else .ok none
  | [] => .ok none

def readBased (base : Nat) (subject : String) (start : List Char) : Reader Scalar := fun text => do
  let (digits, rest) ← (readDigits (isDigitOf base) text).mapError (.within subject)
  match checkWhole (digitsValue base digits) with
  | .ok value => .ok (.whole value, rest)
  | .error cause => .error (.before start (.ofCause cause))

/-- A float that is no decimal: infinity, or the result without a value. -/
def specialFloat? (text : List Char) : Option (Binary64 × List Char) :=
  match readSign text with
  | (negative, 'i' :: 'n' :: 'f' :: rest) => some (.infinite negative, rest)
  | (_, 'n' :: 'a' :: 'n' :: rest) => some (.nan, rest)
  | _ => none

def readNumber : Reader Scalar := fun text =>
  match readWhole text with
  | .error fault =>
    if fault.final then .error fault
    else match specialFloat? text with
      | some (value, rest) => .ok (.float value, rest)
      | none => .error fault
  | .ok (whole, rest) => do
    match ← (readTail rest).mapError (.within "floating-point number") with
    | some (tail, rest) =>
      let digits := digitsValue 10 (whole.digits ++ tail.fraction)
      let value := Binary64.ofDecimal whole.negative digits (tail.exponent - tail.fraction.length)
      if value = .infinite false then .error (.before text (.invalid "floating-point number"))
      else .ok (.float value, rest)
    | none =>
      match text with
      | '0' :: 'x' :: rest => readBased 16 "hexadecimal integer" text rest
      | '0' :: 'o' :: rest =>
        readBased 8 "octal integer" text rest
      | '0' :: 'b' :: rest =>
        readBased 2 "binary integer" text rest
      | _ =>
        let size : Int := digitsValue 10 whole.digits
        match checkWhole (if whole.negative then -size else size) with
        | .ok value => .ok (.whole value, rest)
        | .error cause => .error (.before text (.ofCause cause))

end ApiPresence.Toml

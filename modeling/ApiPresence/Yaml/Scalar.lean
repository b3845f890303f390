import ApiPresence.Number.Shortest
import ApiPresence.Text

namespace ApiPresence.Yaml

open Text (isDigit digitValue digits?)

inductive Resolved where
  | null
  | bool (value : Bool)
  | number (value : Number)
  /-- A whole number that takes more than 64 bits and at most 128. -/
  | wide (value : Int)
  | string
  deriving DecidableEq

def isNull (text : List Char) : Bool :=
  text == ['n', 'u', 'l', 'l'] || text == ['N', 'u', 'l', 'l'] || text == ['N', 'U', 'L', 'L']
    || text == ['~']

def bool? (text : List Char) : Option Bool :=
  if text == ['t', 'r', 'u', 'e'] || text == ['T', 'r', 'u', 'e']
      || text == ['T', 'R', 'U', 'E'] then
    some true
  else if text == ['f', 'a', 'l', 's', 'e'] || text == ['F', 'a', 'l', 's', 'e']
      || text == ['F', 'A', 'L', 'S', 'E'] then
    some false
  else none

def base? : List Char → Option (Nat × List Char)
  | '0' :: 'x' :: rest => some (16, rest)
  | '0' :: 'o' :: rest => some (8, rest)
  | '0' :: 'b' :: rest => some (2, rest)
  | _ => none

/-- Zeros followed by further digits make a string, not a number. -/
def isZeroPadded (text : List Char) : Bool :=
  let unsigned := match text with
    | '+' :: rest => rest
    | '-' :: rest => rest
    | rest => rest
  match unsigned with
  | '0' :: c :: rest => (c :: rest).all isDigit
  | _ => false

def whole? (text : List Char) : Option Int :=
  if isZeroPadded text then none
  else
    let (negative, unsigned) := match text with
      | '+' :: rest => (false, rest)
      | '-' :: rest => (true, rest)
      | rest => (false, rest)
    let magnitude := match base? unsigned with
      | some (base, rest) => digits? base rest
      | none => digits? 10 unsigned
    magnitude.map fun n => if negative then -(n : Int) else n

def spanDigits (text : List Char) : List Char × List Char := text.span isDigit

def digitsValue (text : List Char) : Nat := text.foldl (fun n c => n * 10 + digitValue c) 0

def exponent? : List Char → Option Int
  | [] => some 0
  | c :: rest =>
    if c = 'e' ∨ c = 'E' then
      let (negative, digits) := match rest with
        | '+' :: rest => (false, rest)
        | '-' :: rest => (true, rest)
        | rest => (false, rest)
      if digits ≠ [] ∧ digits.all isDigit then
        let size : Int := digitsValue digits
        some (if negative then -size else size)
      else none
    else none

def decimal? (negative : Bool) (text : List Char) : Option Binary64 :=
  let (whole, rest) := spanDigits text
  let (fraction, rest) := match rest with
    | '.' :: rest => spanDigits rest
    | rest => ([], rest)
  if whole = [] ∧ fraction = [] then none
  else (exponent? rest).map fun exponent =>
    Binary64.ofDecimal negative (digitsValue (whole ++ fraction)) (exponent - fraction.length)

def isInfinity (text : List Char) : Bool :=
  text == ['.', 'i', 'n', 'f'] || text == ['.', 'I', 'n', 'f'] || text == ['.', 'I', 'N', 'F']

def isNan (text : List Char) : Bool :=
  text == ['.', 'n', 'a', 'n'] || text == ['.', 'N', 'a', 'N'] || text == ['.', 'N', 'A', 'N']

/-- A float; a decimal beyond the largest finite number is none. -/
def float? (text : List Char) : Option Binary64 :=
  let (negative, unsigned) := match text with
    | '+' :: rest => (false, rest)
    | '-' :: rest => (true, rest)
    | rest => (false, rest)
  if isInfinity unsigned then some (.infinite negative)
  else if isNan text then some .nan
  else (decimal? negative unsigned).filter Binary64.isFinite

def isLong (value : Int) : Bool := -0x8000000000000000 ≤ value && value < 0x10000000000000000

def isWide (value : Int) : Bool :=
  -0x80000000000000000000000000000000 ≤ value && value < 0x100000000000000000000000000000000

/-- What an unquoted text stands for: null, a bool, a whole number, a float, or else itself. -/
def resolve (text : List Char) : Resolved :=
  if text.isEmpty || isNull text then .null
  else if let some value := bool? text then .bool value
  else
    let float := if isZeroPadded text then none else float? text
    match whole? text, float with
    | some value, float =>
      if isLong value then .number (.ofInt value)
      else if isWide value then .wide value
      else match float with
        | some value => .number (.float value)
        | none => .string
    | none, some value => .number (.float value)
    | none, none => .string

end ApiPresence.Yaml

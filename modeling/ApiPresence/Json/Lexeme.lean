import ApiPresence.Json.Fault
import ApiPresence.Number
import ApiPresence.Text

namespace ApiPresence.Json

open Text (isDigit digitValue digit? octets)

def isBlank (c : Char) : Bool := c = ' ' || c = '\n' || c = '\t' || c = '\r'

def skipBlanks (text : List Char) : List Char := text.dropWhile isBlank

def readWord : (letters : List Char) → List Char → Except Fault (List Char)
  | [], rest => .ok rest
  | _ :: _, [] => .error (.before .eofInValue [])
  | letter :: letters, c :: rest =>
    if c = letter then readWord letters rest else .error (.at .expectedIdent (c :: rest))

/-- Four hexadecimal digits; four octets are taken whatever they hold. -/
def readHex4 (text : List Char) : Except Fault (Nat × List Char) :=
  match text with
  | a :: b :: c :: d :: rest =>
    match digit? 16 a, digit? 16 b, digit? 16 c, digit? 16 d with
    | some a, some b, some c, some d => .ok (((a * 16 + b) * 16 + c) * 16 + d, rest)
    | _, _, _, _ => .error ⟨.invalidEscape, octets text - 4⟩
  | _ =>
    if octets text < 4 then .error (.before .eofInString [])
    else .error ⟨.invalidEscape, octets text - 4⟩

/-- The character of a `\u` escape, whose high surrogate is followed by an escaped low one. -/
def readUnicodeEscape (text : List Char) : Except Fault (Char × List Char) := do
  let (high, rest) ← readHex4 text
  if 0xdc00 ≤ high ∧ high ≤ 0xdfff then .error (.before .loneSurrogate rest)
  else if high < 0xd800 ∨ 0xdbff < high then .ok (Char.ofNat high, rest)
  else match rest with
    | [] => .error (.before .eofInString [])
    | '\\' :: [] => .error (.before .eofInString [])
    | '\\' :: 'u' :: rest =>
      let (low, rest) ← readHex4 rest
      if low < 0xdc00 ∨ 0xdfff < low then .error (.before .loneSurrogate rest)
      else .ok (Char.ofNat ((high - 0xd800) * 1024 + (low - 0xdc00) + 0x10000), rest)
    | '\\' :: rest => .error (.at .unexpectedEndOfHexEscape rest)
    | rest => .error (.at .unexpectedEndOfHexEscape rest)

def readEscape (text : List Char) : Except Fault (Char × List Char) :=
  match text with
  | [] => .error (.before .eofInString [])
  | '"' :: rest => .ok ('"', rest)
  | '\\' :: rest => .ok ('\\', rest)
  | '/' :: rest => .ok ('/', rest)
  | 'b' :: rest => .ok ('\x08', rest)
  | 'f' :: rest => .ok ('\x0c', rest)
  | 'n' :: rest => .ok ('\n', rest)
  | 'r' :: rest => .ok ('\r', rest)
  | 't' :: rest => .ok ('\t', rest)
  | 'u' :: rest => readUnicodeEscape rest
  | rest => .error (.at .invalidEscape rest)

def readChars : (fuel : Nat) → List Char → Except Fault (List Char × List Char)
  | _, [] => .error (.before .eofInString [])
  | _, '"' :: rest => .ok ([], rest)
  | 0, rest => .error (.before .eofInString rest)
  | fuel + 1, '\\' :: rest => do
    let (c, rest) ← readEscape rest
    let (cs, rest) ← readChars fuel rest
    .ok (c :: cs, rest)
  | fuel + 1, c :: rest =>
    if c.toNat < 32 then .error (.before .controlCharacter rest)
    else do
      let (cs, rest) ← readChars fuel rest
      .ok (c :: cs, rest)

def readString (text : List Char) : Except Fault (String × List Char) := do
  let (cs, rest) ← readChars text.length text
  .ok (String.ofList cs, rest)

/-- Steps over an escape; whether its code stands for a character does not matter. -/
def skipEscape (text : List Char) : Except Fault (List Char) :=
  match text with
  | [] => .error (.before .eofInString [])
  | 'u' :: rest => do
    let (_, rest) ← readHex4 rest
    .ok rest
  | c :: rest =>
    if c ∈ ['"', '\\', '/', 'b', 'f', 'n', 'r', 't'] then .ok rest
    else .error (.at .invalidEscape (c :: rest))

def skipChars : (fuel : Nat) → List Char → Except Fault (List Char)
  | _, [] => .error (.before .eofInString [])
  | _, '"' :: rest => .ok rest
  | 0, rest => .error (.before .eofInString rest)
  | fuel + 1, '\\' :: rest => do
    let rest ← skipEscape rest
    skipChars fuel rest
  | fuel + 1, c :: rest =>
    if c.toNat < 32 then .error (.before .controlCharacter (c :: rest))
    else skipChars fuel rest

def skipString (text : List Char) : Except Fault (List Char) := skipChars text.length text

/--
A float of which some digits are read. Digits are kept while 64 bits hold them; the exponent of ten
makes up for whole digits that are not kept.
-/
structure Partial where
  negative : Bool
  significand : Nat
  exponent : Int
  deriving DecidableEq, Repr

def powerOfTen (n : Nat) : Nat := Binary64.units (Binary64.nearestRank (Nat.pow 10 n) 1)

def quotientRank (rank power : Nat) : Nat := Binary64.nearestRank (Binary64.units rank) power

/-- Divides by the largest power of ten as often as asked; three times leave nothing of 64 bits. -/
def shrink (rank : Nat) : (times : Nat) → Nat
  | 0 => rank
  | times + 1 => shrink (quotientRank rank (powerOfTen 308)) times

/--
The float of a significand and an exponent: the significand is rounded first and then multiplied or
divided by the rounded power of ten. None when it is too large.
-/
def Partial.value? (p : Partial) : Option Binary64 :=
  let rank := Binary64.nearestRank p.significand 1
  let found :=
    if p.exponent ≥ 0 then
      if p.exponent ≤ 308 then
        Binary64.nearestRank (Binary64.units rank * powerOfTen p.exponent.toNat)
          (Binary64.unitsPerOne * Binary64.unitsPerOne)
      else if rank = 0 then 0 else 0x7ff0000000000000
    else
      let size := (-p.exponent).toNat
      let times := (size - 1) / 308
      quotientRank (shrink rank (min times 3)) (powerOfTen (size - 308 * times))
  if h : found < 0x7ff0000000000000 then some (.finite p.negative ⟨found, h⟩) else none

def Partial.finish (p : Partial) (rest : List Char) : Except Fault (Number × List Char) :=
  match p.value? with
  | some value => .ok (.float value, rest)
  | none => .error (.before .numberOutOfRange rest)

/-- The digits of an exponent; it is not kept beyond 31 bits. -/
def readExponentDigits (p : Partial) (positive : Bool) (exponent : Nat) :
    List Char → Except Fault (Number × List Char)
  | c :: rest =>
    if isDigit c then
      let next := exponent * 10 + digitValue c
      if 0x7fffffff < next then
        if p.significand ≠ 0 ∧ positive then .error (.before .numberOutOfRange rest)
        else .ok (.float (.zero p.negative), rest.dropWhile isDigit)
      else readExponentDigits p positive next rest
    else finish (c :: rest)
  | [] => finish []
where
  finish (rest : List Char) : Except Fault (Number × List Char) :=
    { p with exponent := if positive then p.exponent + exponent else p.exponent - exponent }.finish
      rest

def readExponent (p : Partial) (text : List Char) : Except Fault (Number × List Char) :=
  let (positive, text) := match text with
    | '+' :: rest => (true, rest)
    | '-' :: rest => (false, rest)
    | rest => (true, rest)
  match text with
  | [] => .error (.before .eofInValue [])
  | c :: rest =>
    if isDigit c then readExponentDigits p positive (digitValue c) rest
    else .error (.at .invalidNumber (c :: rest))

def readAfterDigits (p : Partial) : List Char → Except Fault (Number × List Char)
  | 'e' :: rest => readExponent p rest
  | 'E' :: rest => readExponent p rest
  | rest => p.finish rest

/-- The digits after a point; once one is not kept, none of the later ones is. -/
def readFraction (p : Partial) (first : Bool) : List Char → Except Fault (Number × List Char)
  | c :: rest =>
    if isDigit c then
      let next := p.significand * 10 + digitValue c
      if next < 0x10000000000000000 then
        readFraction { p with significand := next, exponent := p.exponent - 1 } false rest
      else readAfterDigits p (rest.dropWhile isDigit)
    else if first then .error (.at .invalidNumber (c :: rest))
    else readAfterDigits p (c :: rest)
  | [] => if first then .error (.before .eofInValue []) else readAfterDigits p []

/-- Whole digits of which none is kept any more. -/
def readLong (p : Partial) : List Char → Except Fault (Number × List Char)
  | c :: rest =>
    if isDigit c then readLong { p with exponent := p.exponent + 1 } rest
    else if c = '.' then readFraction p true rest
    else readAfterDigits p (c :: rest)
  | [] => p.finish []

/--
The number of a sign and whole digits; a negative number beyond 64 bits, and zero, are floats.
-/
def wholeNumber (negative : Bool) (n : Nat) : Number :=
  if negative then
    if n = 0 then .float (.zero true) else Number.ofInt (-n)
  else Number.ofNat n

def readAfterWhole (negative : Bool) (n : Nat) : List Char → Except Fault (Number × List Char)
  | '.' :: rest => readFraction ⟨negative, n, 0⟩ true rest
  | 'e' :: rest => readExponent ⟨negative, n, 0⟩ rest
  | 'E' :: rest => readExponent ⟨negative, n, 0⟩ rest
  | rest => .ok (wholeNumber negative n, rest)

def readWhole (negative : Bool) (n : Nat) : List Char → Except Fault (Number × List Char)
  | c :: rest =>
    if isDigit c then
      let next := n * 10 + digitValue c
      if next < 0x10000000000000000 then readWhole negative next rest
      else readLong ⟨negative, n, 0⟩ (c :: rest)
    else readAfterWhole negative n (c :: rest)
  | [] => readAfterWhole negative n []

def readNumber (negative : Bool) : List Char → Except Fault (Number × List Char)
  | [] => .error (.before .eofInValue [])
  | '0' :: rest =>
    match rest with
    | c :: _ =>
      if isDigit c then .error (.at .invalidNumber rest) else readAfterWhole negative 0 rest
    | [] => readAfterWhole negative 0 []
  | c :: rest =>
    if isDigit c then readWhole negative (digitValue c) rest
    else .error (.at .invalidNumber (c :: rest))

def skipExponent (text : List Char) : Except Fault (List Char) :=
  let text := match text with
    | '+' :: rest => rest
    | '-' :: rest => rest
    | rest => rest
  match text with
  | [] => .error (.before .invalidNumber [])
  | c :: rest =>
    if isDigit c then .ok (rest.dropWhile isDigit) else .error (.at .invalidNumber (c :: rest))

def skipAfterDigits : List Char → Except Fault (List Char)
  | 'e' :: rest => skipExponent rest
  | 'E' :: rest => skipExponent rest
  | rest => .ok rest

/-- Steps over a number after its sign; its size does not matter. -/
def skipNumber (text : List Char) : Except Fault (List Char) := do
  let rest ← match text with
    | '0' :: rest =>
      match rest with
      | c :: _ => if isDigit c then .error (Fault.at .invalidNumber rest) else .ok rest
      | [] => .ok []
    | c :: rest =>
      if isDigit c then .ok (rest.dropWhile isDigit)
      else .error (Fault.at .invalidNumber (c :: rest))
    | [] => .error (Fault.before .invalidNumber [])
  match rest with
  | '.' :: rest =>
    match rest with
    | c :: _ =>
      if isDigit c then skipAfterDigits (rest.dropWhile isDigit)
      else .error (.at .invalidNumber rest)
    | [] => .error (.at .invalidNumber [])
  | rest => skipAfterDigits rest

end ApiPresence.Json

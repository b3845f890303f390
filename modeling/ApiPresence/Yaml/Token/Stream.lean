import ApiPresence.Yaml.Token.Scanner

namespace ApiPresence.Yaml

open Text (octets)

/-- The characters that a text may hold: no controls but tabs and line breaks. -/
def isAllowed (c : Char) : Bool :=
  let n := c.toNat
  n = 9 || n = 10 || n = 13 || (32 ≤ n && n ≤ 0x7e) || n = 0x85 || (0xa0 ≤ n && n ≤ 0xfffd)
    || 0x10000 ≤ n

/--
Octets are looked at in pieces of this many, and of a piece all are looked at before any is read.
-/
def pieceSize : Nat := 16384

/-- A character that is not allowed: the octets before it, and the characters before its piece. -/
structure Intruder where
  offset : Nat
  readable : Nat

def intruder? (pieceStart readable count offset : Nat) : List Char → Option Intruder
  | [] => none
  | c :: rest =>
    let isNew := pieceStart + pieceSize < offset + c.utf8Size
    let pieceStart := if isNew then offset else pieceStart
    let readable := if isNew then count else readable
    if isAllowed c then intruder? pieceStart readable (count + 1) (offset + c.utf8Size) rest
    else some ⟨offset, readable⟩

/-- A step within some octets: if it gets to their end, it meets the given fault instead. -/
def Scanner.stepWithin (limit : Nat) (fault : SyntaxError) (s : Scanner) :
    Except SyntaxError Scanner :=
  match s.step with
  | .ok next => if next.mark.index < limit then .ok next else .error fault
  | .error (.malformed problem mark context) =>
    .error (if mark.index < limit then .malformed problem mark context else fault)
  | .error other => .error other

namespace TokenStream

def scan (step : Scanner → Except SyntaxError Scanner) (text : List Char) : TokenStream :=
  Scanner.run step (8 * text.length + 16) (.ofText text)

/--
The tokens of a text. In front of a piece with a character that is not allowed, the last four
characters are only looked at.
-/
def ofText (text : List Char) : TokenStream :=
  match intruder? 0 0 0 0 text with
  | none => scan Scanner.step text
  | some intruder =>
    let limit := octets (text.take (intruder.readable - 4))
    scan (Scanner.stepWithin limit (.controlCharacter intruder.offset))
      (text.take intruder.readable)

end TokenStream
end ApiPresence.Yaml

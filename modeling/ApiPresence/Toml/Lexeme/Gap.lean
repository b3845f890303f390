import ApiPresence.Toml.Problem

namespace ApiPresence.Toml

def isBlank (c : Char) : Bool := c = ' ' || c = '\t'

def skipBlanks (text : List Char) : List Char := text.dropWhile isBlank

def pastBreak? : List Char → Option (List Char)
  | '\n' :: rest => some rest
  | '\r' :: '\n' :: rest => some rest
  | _ => none

/-- The characters of a comment: no controls but tabs. -/
def isCommentChar (c : Char) : Bool := c = '\t' || (' ' ≤ c && c ≤ '~') || 0x80 ≤ c.toNat

def skipComment : List Char → List Char
  | '#' :: rest => rest.dropWhile isCommentChar
  | text => text

def readBreak (text : List Char) : Except Fault (List Char) :=
  match text, pastBreak? text with
  | [], _ => .ok []
  | _, some rest => .ok rest
  | _, none => .error (.before text .unknown)

def readLineEnd (text : List Char) : Except Fault (List Char) :=
  (readBreak (skipComment (skipBlanks text))).mapError (.orWanted ["newline", quoted "#"])

/-- A break that has to stand here; of something else the first character counts as read. -/
def readInnerBreak (text : List Char) : Except Fault (List Char) :=
  match pastBreak? text with
  | some rest => .ok rest
  | none => .error (.absent (text.drop 1) .unknown)

def skipGap : (fuel : Nat) → List Char → Except Fault (List Char)
  | 0, text => .ok text
  | fuel + 1, text => do
    let text := skipBlanks text
    match text with
    | '#' :: _ =>
      let rest ← readInnerBreak (skipComment text)
      skipGap fuel rest
    | '\n' :: rest => skipGap fuel rest
    | '\r' :: _ =>
      let rest ← readInnerBreak text
      skipGap fuel rest
    | _ => .ok text

end ApiPresence.Toml

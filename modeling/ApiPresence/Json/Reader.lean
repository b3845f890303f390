import ApiPresence.Json.Lexeme
import ApiPresence.Tree

namespace ApiPresence.Json

open Text (isDigit)

/-- How deep arrays and objects may stand in each other, plus one. -/
def depthLimit : Nat := 128

def readColon (text : List Char) : Except Fault (List Char) :=
  match skipBlanks text with
  | ':' :: rest => .ok rest
  | [] => .error (.before .eofInObject [])
  | rest => .error (.at .expectedColon rest)

/--
The front of an array's text after `[`, or after an item: where the next item starts, if there is
one.
-/
def nextItem (first : Bool) (text : List Char) : Except Fault (Option (List Char)) :=
  match skipBlanks text with
  | [] => .error (.before .eofInList [])
  | ']' :: _ => .ok none
  | c :: rest =>
    if first then .ok (some (c :: rest))
    else if c = ',' then
      match skipBlanks rest with
      | [] => .error (.before .eofInValue [])
      | ']' :: rest => .error (.at .trailingComma (']' :: rest))
      | rest => .ok (some rest)
    else .error (.at .expectedListCommaOrEnd (c :: rest))

/--
The front of an object's text after `{`, or after a value: where the next key's characters start.
-/
def nextKey (first : Bool) (text : List Char) : Except Fault (Option (List Char)) :=
  match skipBlanks text with
  | [] => .error (.before .eofInObject [])
  | '}' :: _ => .ok none
  | c :: rest =>
    if first then
      if c = '"' then .ok (some rest) else .error (.at .keyNotString (c :: rest))
    else if c = ',' then
      match skipBlanks rest with
      | [] => .error (.before .eofInValue [])
      | '"' :: rest => .ok (some rest)
      | '}' :: rest => .error (.at .trailingComma ('}' :: rest))
      | rest => .error (.at .keyNotString rest)
    else .error (.at .expectedObjectCommaOrEnd (c :: rest))

def pastClosing (text : List Char) : List Char := (skipBlanks text).drop 1

mutual

/-- The value in front of a text, `depth` levels being left for nesting. -/
def readValue : (fuel depth : Nat) → List Char → Except Fault (Tree × List Char)
  | 0, _, text => .error (.before .eofInValue text)
  | fuel + 1, depth, text =>
    match skipBlanks text with
    | [] => .error (.before .eofInValue [])
    | 'n' :: rest => do
      let rest ← readWord ['u', 'l', 'l'] rest
      .ok (.null, rest)
    | 't' :: rest => do
      let rest ← readWord ['r', 'u', 'e'] rest
      .ok (.bool true, rest)
    | 'f' :: rest => do
      let rest ← readWord ['a', 'l', 's', 'e'] rest
      .ok (.bool false, rest)
    | '-' :: rest => do
      let (number, rest) ← readNumber true rest
      .ok (.number number, rest)
    | '"' :: rest => do
      let (s, rest) ← readString rest
      .ok (.string s, rest)
    | '[' :: rest =>
      if depth ≤ 1 then .error (.at .recursionLimit ('[' :: rest))
      else do
        let (items, rest) ← readItems fuel (depth - 1) true rest
        .ok (.array items, rest)
    | '{' :: rest =>
      if depth ≤ 1 then .error (.at .recursionLimit ('{' :: rest))
      else do
        let (entries, rest) ← readEntries fuel (depth - 1) true rest
        .ok (.ofEntries entries, rest)
    | c :: rest =>
      if isDigit c then do
        let (number, rest) ← readNumber false (c :: rest)
        .ok (.number number, rest)
      else .error (.at .expectedValue (c :: rest))

def readItems : (fuel depth : Nat) → (first : Bool) → List Char →
    Except Fault (List Tree × List Char)
  | 0, _, _, text => .error (.before .eofInList text)
  | fuel + 1, depth, first, text => do
    match ← nextItem first text with
    | none => .ok ([], pastClosing text)
    | some rest =>
      let (item, rest) ← readValue fuel depth rest
      let (items, rest) ← readItems fuel depth false rest
      .ok (item :: items, rest)

def readEntries : (fuel depth : Nat) → (first : Bool) → List Char →
    Except Fault (List (String × Tree) × List Char)
  | 0, _, _, text => .error (.before .eofInObject text)
  | fuel + 1, depth, first, text => do
    match ← nextKey first text with
    | none => .ok ([], pastClosing text)
    | some rest =>
      let (key, rest) ← readString rest
      let rest ← readColon rest
      let (value, rest) ← readValue fuel depth rest
      let (entries, rest) ← readEntries fuel depth false rest
      .ok ((key, value) :: entries, rest)

end

mutual

/-- Steps over the value in front of a text, at any depth. -/
def skipValue : (fuel : Nat) → List Char → Except Fault (List Char)
  | 0, text => .error (.before .eofInValue text)
  | fuel + 1, text =>
    match skipBlanks text with
    | [] => .error (.before .eofInValue [])
    | 'n' :: rest => readWord ['u', 'l', 'l'] rest
    | 't' :: rest => readWord ['r', 'u', 'e'] rest
    | 'f' :: rest => readWord ['a', 'l', 's', 'e'] rest
    | '-' :: rest => skipNumber rest
    | '"' :: rest => skipString rest
    | '[' :: rest =>
      match skipBlanks rest with
      | [] => .error (.before .eofInList [])
      | ']' :: rest => .ok rest
      | rest => do
        let rest ← skipValue fuel rest
        skipMoreItems fuel rest
    | '{' :: rest =>
      match skipBlanks rest with
      | [] => .error (.before .eofInObject [])
      | '}' :: rest => .ok rest
      | rest => skipMember fuel rest
    | c :: rest =>
      if isDigit c then skipNumber (c :: rest) else .error (.at .expectedValue (c :: rest))

def skipMoreItems : (fuel : Nat) → List Char → Except Fault (List Char)
  | 0, text => .error (.before .eofInList text)
  | fuel + 1, text =>
    match skipBlanks text with
    | [] => .error (.before .eofInList [])
    | ']' :: rest => .ok rest
    | ',' :: rest => do
      let rest ← skipValue fuel rest
      skipMoreItems fuel rest
    | rest => .error (.at .expectedListCommaOrEnd rest)

def skipMember : (fuel : Nat) → List Char → Except Fault (List Char)
  | 0, text => .error (.before .eofInObject text)
  | fuel + 1, text =>
    match skipBlanks text with
    | [] => .error (.before .eofInObject [])
    | '"' :: rest => do
      let rest ← skipString rest
      let rest ← readColon rest
      let rest ← skipValue fuel rest
      match skipBlanks rest with
      | [] => .error (.before .eofInObject [])
      | '}' :: rest => .ok rest
      | ',' :: rest => skipMember fuel rest
      | rest => .error (.at .expectedObjectCommaOrEnd rest)
    | rest => .error (.at .keyNotString rest)

end

def readEnd (rest : List Char) : Except Fault Unit :=
  match skipBlanks rest with
  | [] => .ok ()
  | rest => .error (.at .trailingCharacters rest)

def readTree (text : List Char) : Except Fault Tree := do
  let (tree, rest) ← readValue (2 * text.length + 1) depthLimit text
  readEnd rest
  .ok tree

def parse (text : String) : Except Error Tree :=
  (readTree text.toList).mapError (Error.ofFault text.toList)

end ApiPresence.Json

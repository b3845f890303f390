import ApiPresence.Toml.Lexeme.Gap

namespace ApiPresence.Toml

/-- The characters of a string in apostrophes: no controls but tabs, and no apostrophe. -/
def isLiteralChar (c : Char) : Bool := isCommentChar c && c ≠ '\''

def isBasicChar (c : Char) : Bool := isCommentChar c && c ≠ '"' && c ≠ '\\'

def readCode (count : Nat) (subject : String) : Reader Char := fun text =>
  match if (text.take count).length = count then Text.digits? 16 (text.take count) else none with
  | none => .error (.before text (.invalid subject))
  | some code =>
    if code.isValidChar then .ok (Char.ofNat code, text.drop count)
    else .error (.within subject (.before text (.ofCause .outOfRange)))

def escapeNames : List String :=
  [quoted "b", quoted "f", quoted "n", quoted "r", quoted "t", quoted "u", quoted "U", quoted "\\",
    quoted "\""]

def readEscape : Reader Char
  | 'b' :: rest => .ok ('\x08', rest)
  | 'f' :: rest => .ok ('\x0c', rest)
  | 'n' :: rest => .ok ('\n', rest)
  | 'r' :: rest => .ok ('\r', rest)
  | 't' :: rest => .ok ('\t', rest)
  | '\\' :: rest => .ok ('\\', rest)
  | '"' :: rest => .ok ('"', rest)
  | 'u' :: rest => readCode 4 "unicode 4-digit hex code" rest
  | 'U' :: rest => readCode 8 "unicode 8-digit hex code" rest
  | c :: rest =>
    let place := if c.toNat < 0x80 then rest else c :: rest
    .error (.before place ⟨some "escape sequence", escapeNames, none⟩)
  | [] => .error (.before [] (.invalid "escape sequence"))

def readBasic : (fuel : Nat) → Reader (List Char)
  | fuel + 1, c :: rest =>
    if c = '"' then .ok ([], rest)
    else if c = '\\' ∧ rest ≠ [] then do
      let (c, rest) ← readEscape rest
      let (text, rest) ← readBasic fuel rest
      .ok (c :: text, rest)
    else if isBasicChar c then do
      let (text, rest) ← readBasic fuel rest
      .ok (c :: text, rest)
    else .error (.before (c :: rest) (.invalid "basic string"))
  | _, rest => .error (.before rest (.invalid "basic string"))

def readLiteral (text : List Char) : Except Fault (List Char × List Char) :=
  match text.dropWhile isLiteralChar with
  | '\'' :: rest => .ok (text.takeWhile isLiteralChar, rest)
  | rest => .error (.before rest (.invalid "literal string"))

/-- The quotes at the front of a text that belong to it: all in front of the last three of a run. -/
def innerQuotes (quote : Char) (text : List Char) : Nat :=
  let run := (text.takeWhile (· = quote)).length
  if run < 3 then run else min (run - 3) 2

def pastJoin? (text : List Char) : Option (List Char) :=
  (pastBreak? (skipBlanks text)).map fun rest => skip rest.length rest
where
  skip : (fuel : Nat) → List Char → List Char
    | 0, text => text
    | fuel + 1, text =>
      let text := skipBlanks text
      match pastBreak? text with
      | some rest => skip fuel rest
      | none => text

def readBasicLines : (fuel : Nat) → Reader (List Char)
  | 0, rest => .error (.before rest (.invalid "multiline basic string"))
  | fuel + 1, text =>
    match text with
    | [] => .error (.before [] (.invalid "multiline basic string"))
    | '"' :: _ =>
      let run := (text.takeWhile (· = '"')).length
      let inner := innerQuotes '"' text
      if 3 ≤ run then .ok (List.replicate inner '"', text.drop (inner + 3))
      else if text.drop run = [] then .error (.before text (.invalid "multiline basic string"))
      else do
        let (more, rest) ← readBasicLines fuel (text.drop run)
        .ok (List.replicate run '"' ++ more, rest)
    | '\\' :: rest =>
      match pastJoin? rest with
      | some rest => readBasicLines fuel rest
      | none =>
        if rest = [] then .error (.before text (.invalid "multiline basic string"))
        else do
          let (c, rest) ← readEscape rest
          let (more, rest) ← readBasicLines fuel rest
          .ok (c :: more, rest)
    | c :: rest =>
      if isBasicChar c then do
        let (more, rest) ← readBasicLines fuel rest
        .ok (c :: more, rest)
      else match pastBreak? text with
        | some rest => do
          let (more, rest) ← readBasicLines fuel rest
          .ok ('\n' :: more, rest)
        | none => .error (.before text (.invalid "multiline basic string"))

def readLiteralLines : (fuel : Nat) → Reader (List Char)
  | 0, rest => .error (.before rest (.invalid "multiline literal string"))
  | fuel + 1, text =>
    match text with
    | [] => .error (.before [] (.invalid "multiline literal string"))
    | '\'' :: _ =>
      let run := (text.takeWhile (· = '\'')).length
      let inner := innerQuotes '\'' text
      let after := text.drop run
      if 3 ≤ run then .ok (List.replicate inner '\'', text.drop (inner + 3))
      else if after.head?.any isLiteralChar || (pastBreak? after).isSome then do
        let (more, rest) ← readLiteralLines fuel after
        .ok (List.replicate run '\'' ++ more, rest)
      else .error (.before text (.invalid "multiline literal string"))
    | c :: rest =>
      if isLiteralChar c then do
        let (more, rest) ← readLiteralLines fuel rest
        .ok (c :: more, rest)
      else match pastBreak? text with
        | some rest => do
          let (more, rest) ← readLiteralLines fuel rest
          .ok ('\n' :: more, rest)
        | none => .error (.before text (.invalid "multiline literal string"))

/-- A line break right after the opening quotes does not count. -/
def skipFirstBreak (text : List Char) : List Char := (pastBreak? text).getD text

def readString : Reader String := fun text => do
  let (chars, rest) ← match text with
    | '"' :: '"' :: '"' :: rest => readBasicLines (rest.length + 1) (skipFirstBreak rest)
    | '"' :: rest => readBasic (rest.length + 1) rest
    | '\'' :: '\'' :: '\'' :: rest => readLiteralLines (rest.length + 1) (skipFirstBreak rest)
    | '\'' :: rest => readLiteral rest
    | rest => .error (.absent rest .unknown)
  .ok (String.ofList chars, rest)

end ApiPresence.Toml

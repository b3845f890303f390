import ApiPresence.Yaml.Lexeme.Block
import ApiPresence.Yaml.Lexeme.Plain
import ApiPresence.Yaml.Lexeme.Quoted
import ApiPresence.Yaml.Token

namespace ApiPresence.Yaml

/-- A place where a key may have started; only a later colon on the same line tells. -/
structure PossibleKey where
  /-- A key at the indentation of its block is the only thing that can stand there. -/
  required : Bool
  /-- The number of the token that would follow the key's mark. -/
  tokenNumber : Nat
  mark : Mark
  deriving Inhabited

/-- The state of reading tokens: one possible key for each flow collection around the cursor. -/
structure Scanner where
  cursor : Cursor
  /-- The indentation of the block around the cursor, and of those around it. -/
  indent : Int
  indents : List Int
  flowKeys : List (Option PossibleKey)
  possibleKey : Option PossibleKey
  keyAllowed : Bool
  /-- Tokens behind a possible key, which may still have to go in front of them. -/
  waiting : List Token
  released : Nat
  ended : Bool
  deriving Inhabited

namespace Scanner

def ofText (text : List Char) : Scanner where
  cursor := .ofText text
  indent := -1
  indents := []
  flowKeys := []
  possibleKey := none
  keyAllowed := true
  waiting := []
  released := 0
  ended := false

def inFlow (s : Scanner) : Bool := s.flowKeys ≠ []

def mark (s : Scanner) : Mark := s.cursor.mark

def column (s : Scanner) : Int := s.cursor.mark.column

def append (s : Scanner) (kind : TokenKind) (start stop : Mark) : Scanner :=
  { s with waiting := s.waiting ++ [⟨kind, start, stop⟩] }

/-- Puts a token without extent in front of the waiting one of a number. -/
def insert (s : Scanner) (number : Nat) (kind : TokenKind) (mark : Mark) : Scanner :=
  let place := number - s.released
  { s with waiting := s.waiting.take place ++ ⟨kind, mark, mark⟩ :: s.waiting.drop place }

def failHere (s : Scanner) (problem : Problem) : Except SyntaxError α :=
  .error (.malformed problem s.mark none)

def dropKey (s : Scanner) : Except SyntaxError Scanner :=
  match s.possibleKey with
  | some key =>
    if key.required then s.cursor.fail .expectedColon .simpleKey key.mark
    else .ok { s with possibleKey := none }
  | none => .ok s

/-- A key stays on one line and within 1024 octets. -/
def isStale (s : Scanner) (key : PossibleKey) : Bool :=
  key.mark.line < s.mark.line || key.mark.index + 1024 < s.mark.index

def checkKey (s : Scanner) (key : Option PossibleKey) : Except SyntaxError (Option PossibleKey) :=
  match key with
  | some key =>
    if s.isStale key then
      if key.required then s.cursor.fail .expectedColon .simpleKey key.mark else .ok none
    else .ok (some key)
  | none => .ok none

/-- Gives up the keys that have become impossible, from the outermost collection inwards. -/
def dropStaleKeys (s : Scanner) : Except SyntaxError Scanner := do
  let outer ← s.flowKeys.reverse.mapM s.checkKey
  let key ← s.checkKey s.possibleKey
  .ok { s with flowKeys := outer.reverse, possibleKey := key }

def saveKey (s : Scanner) : Except SyntaxError Scanner :=
  if s.keyAllowed then do
    let required := !s.inFlow && s.indent == s.column
    let s ← s.dropKey
    .ok { s with possibleKey := some ⟨required, s.released + s.waiting.length, s.mark⟩ }
  else .ok s

/--
Opens a block at a column, unless one is open there; its token goes in front of that of a number.
-/
def openBlock (s : Scanner) (column : Int) (number : Option Nat) (kind : TokenKind) (mark : Mark) :
    Scanner :=
  if s.inFlow || column ≤ s.indent then s
  else
    let s := { s with indents := s.indent :: s.indents, indent := column }
    match number with
    | some number => s.insert number kind mark
    | none => s.append kind mark mark

def closeBlocks (s : Scanner) (column : Int) : Scanner :=
  if s.inFlow then s
  else
    let blocks := (s.indent :: s.indents).takeWhile (column < ·)
    let left := (s.indent :: s.indents).drop blocks.length
    { s with
      indent := left.headD (-1)
      indents := left.drop 1
      waiting := s.waiting ++ blocks.map fun _ => ⟨.blockEnd, s.mark, s.mark⟩ }

/--
Past the blanks, comments and line breaks in front of the next token. A line may begin with a
byte-order mark, which takes up a column.
-/
def skipToToken : (fuel : Nat) → Scanner → Scanner
  | 0, s => s
  | fuel + 1, s =>
    let c := if s.mark.column = 0 ∧ s.cursor.startsWith '\ufeff' then s.cursor.skip 1 else s.cursor
    let tabs := s.inFlow || !s.keyAllowed
    let c := c.skipWhile fun x => x = ' ' || (tabs && x = '\t')
    let c := if c.startsWith '#' then c.skipWhile (fun x => !isBreak x) else c
    if c.rest.head?.any isBreak then
      skipToToken fuel
        { s with cursor := c.skipBreak, keyAllowed := s.keyAllowed || !s.inFlow }
    else { s with cursor := c }

def indicator (s : Scanner) (kind : TokenKind) (size : Nat) : Scanner :=
  let next := s.cursor.skip size
  { s.append kind s.mark next.mark with cursor := next }

def readEnd (s : Scanner) : Except SyntaxError Scanner := do
  let m := s.mark
  let m := if m.column = 0 then m else ⟨m.index, m.line + 1, 0⟩
  let s := { s with cursor := ⟨s.cursor.rest, m⟩ }
  let s ← (s.closeBlocks (-1)).dropKey
  .ok ({ s with keyAllowed := false, ended := true }.append .streamEnd s.mark s.mark)

def readDirective (s : Scanner) : Except SyntaxError Scanner := do
  let s ← (s.closeBlocks (-1)).dropKey
  let (directive, stop, c) ← Directive.read s.cursor
  .ok { s.append (.directive directive) s.mark stop with keyAllowed := false, cursor := c }

def readDocumentIndicator (s : Scanner) (kind : TokenKind) : Except SyntaxError Scanner := do
  let s ← (s.closeBlocks (-1)).dropKey
  .ok ({ s with keyAllowed := false }.indicator kind 3)

def readFlowStart (s : Scanner) (kind : TokenKind) : Except SyntaxError Scanner := do
  let s ← s.saveKey
  .ok ({ s with
    flowKeys := s.possibleKey :: s.flowKeys, possibleKey := none, keyAllowed := true }.indicator
      kind 1)

def readFlowEnd (s : Scanner) (kind : TokenKind) : Except SyntaxError Scanner := do
  let s ← s.dropKey
  let s := match s.flowKeys with
    | key :: keys => { s with possibleKey := key, flowKeys := keys }
    | [] => s
  .ok ({ s with keyAllowed := false }.indicator kind 1)

def readFlowEntry (s : Scanner) : Except SyntaxError Scanner := do
  let s ← s.dropKey
  .ok ({ s with keyAllowed := true }.indicator .flowEntry 1)

def readBlockEntry (s : Scanner) : Except SyntaxError Scanner := do
  if !s.inFlow && !s.keyAllowed then s.failHere .blockEntryNotAllowed
  else
    let s ← (s.openBlock s.column none .blockSequenceStart s.mark).dropKey
    .ok ({ s with keyAllowed := true }.indicator .blockEntry 1)

def readKey (s : Scanner) : Except SyntaxError Scanner := do
  if !s.inFlow && !s.keyAllowed then s.failHere .mappingKeyNotAllowed
  else
    let s ← (s.openBlock s.column none .blockMappingStart s.mark).dropKey
    .ok ({ s with keyAllowed := !s.inFlow }.indicator .key 1)

/-- A colon: the possible key at hand becomes a key, or the key in front of it is empty. -/
def readValue (s : Scanner) : Except SyntaxError Scanner :=
  match s.possibleKey with
  | some key =>
    let s := s.insert key.tokenNumber .key key.mark
    let s := s.openBlock key.mark.column (some key.tokenNumber) .blockMappingStart key.mark
    .ok ({ s with possibleKey := none, keyAllowed := false }.indicator .value 1)
  | none =>
    if !s.inFlow && !s.keyAllowed then s.failHere .mappingValueNotAllowed
    else
      let s := s.openBlock s.column none .blockMappingStart s.mark
      .ok ({ s with keyAllowed := !s.inFlow }.indicator .value 1)

def readName (s : Scanner) (activity : Activity) : Except SyntaxError (List Char × Cursor) :=
  let (name, c) := (s.cursor.skip 1).span isWordChar
  let ends := atSpace c.rest || c.rest.head?.any (· ∈ ['?', ':', ',', ']', '}', '%', '@', '\x60'])
  if name = [] || !ends then c.fail .expectedAlphanumeric activity s.mark
  else .ok (name, c)

def readAnchor (s : Scanner) : Except SyntaxError Scanner := do
  let s ← s.saveKey
  let (name, c) ← s.readName .anchor
  .ok { s.append (.anchor name) s.mark c.mark with keyAllowed := false, cursor := c }

def readAlias (s : Scanner) : Except SyntaxError Scanner := do
  let s ← s.saveKey
  let (name, c) ← s.readName .aliasName
  .ok { s.append (.aliasOf name) s.mark c.mark with keyAllowed := false, cursor := c }

def readTag (s : Scanner) : Except SyntaxError Scanner := do
  let s ← s.saveKey
  let (name, c) ← TagName.read s.inFlow s.cursor
  .ok { s.append (.tag name) s.mark c.mark with keyAllowed := false, cursor := c }

def readBlockScalar (s : Scanner) (style : ScalarStyle) : Except SyntaxError Scanner := do
  let s ← s.dropKey
  let (text, stop, c) ← Block.read (style = .folded) s.indent s.cursor
  .ok { s.append (.scalar text style) s.mark stop with keyAllowed := true, cursor := c }

def readQuoted (s : Scanner) (style : ScalarStyle) : Except SyntaxError Scanner := do
  let s ← s.saveKey
  let (text, c) ← Quoted.read (style = .singleQuoted) s.cursor
  .ok { s.append (.scalar text style) s.mark c.mark with keyAllowed := false, cursor := c }

def readPlain (s : Scanner) : Except SyntaxError Scanner := do
  let s ← s.saveKey
  let (scalar, c) ← PlainScalar.read s.inFlow (s.indent + 1).toNat s.cursor
  .ok { s.append (.scalar scalar.text .plain) s.mark scalar.stop with
    keyAllowed := scalar.broken, cursor := c }

def isIndicator (c : Char) : Bool :=
  c ∈ [',', '[', ']', '{', '}', '#', '&', '*', '!', '|', '>', '\'', '"', '%', '@', '\x60']

def startsPlain (inFlow : Bool) (c : Char) (rest : List Char) : Bool :=
  if c = '-' then !rest.head?.any isBlank
  else if c = '?' ∨ c = ':' then !inFlow && !atSpace rest
  else !isBlank c && !isBreak c && !isIndicator c

def readToken (s : Scanner) : Except SyntaxError Scanner :=
  match s.cursor.rest with
  | [] => s.readEnd
  | c :: rest =>
    if s.mark.column = 0 ∧ c = '%' then s.readDirective
    else if s.cursor.isDocumentIndicator '-' then s.readDocumentIndicator .documentStart
    else if s.cursor.isDocumentIndicator '.' then s.readDocumentIndicator .documentEnd
    else if c = '[' then s.readFlowStart .flowSequenceStart
    else if c = '{' then s.readFlowStart .flowMappingStart
    else if c = ']' then s.readFlowEnd .flowSequenceEnd
    else if c = '}' then s.readFlowEnd .flowMappingEnd
    else if c = ',' then s.readFlowEntry
    else if c = '-' ∧ atSpace rest then s.readBlockEntry
    else if c = '?' ∧ (s.inFlow || atSpace rest) then s.readKey
    else if c = ':' ∧ (s.inFlow || atSpace rest) then s.readValue
    else if c = '*' then s.readAlias
    else if c = '&' then s.readAnchor
    else if c = '!' then s.readTag
    else if c = '|' ∧ !s.inFlow then s.readBlockScalar .literal
    else if c = '>' ∧ !s.inFlow then s.readBlockScalar .folded
    else if c = '\'' then s.readQuoted .singleQuoted
    else if c = '"' then s.readQuoted .doubleQuoted
    else if startsPlain s.inFlow c rest then s.readPlain
    else s.cursor.fail .cannotStartToken .nextToken s.mark

def step (s : Scanner) : Except SyntaxError Scanner := do
  let s ← (s.skipToToken (s.cursor.rest.length + 1)).dropStaleKeys
  (s.closeBlocks s.column).readToken

/-- Whether the first waiting token may still turn out to follow a key's mark. -/
def isBlocked (s : Scanner) : Bool :=
  (s.possibleKey :: s.flowKeys).any fun key => key.any (·.tokenNumber = s.released)

/--
The tokens from a state on, by steps of a kind: a token is final as soon as no possible key is in
front of it.
-/
def run (step : Scanner → Except SyntaxError Scanner) : (fuel : Nat) → Scanner → TokenStream
  | 0, _ => ⟨[], none⟩
  | fuel + 1, s =>
    match s.waiting with
    | [] => if s.ended then ⟨[], none⟩ else advance fuel s
    | token :: rest =>
      match s.dropStaleKeys with
      | .error fault => ⟨[], some fault⟩
      | .ok s =>
        if s.isBlocked then advance fuel s
        else
          let stream := run step fuel { s with waiting := rest, released := s.released + 1 }
          { stream with tokens := token :: stream.tokens }
where
  advance (fuel : Nat) (s : Scanner) : TokenStream :=
    match step s with
    | .error fault => ⟨[], some fault⟩
    | .ok s => run step fuel s

end Scanner
end ApiPresence.Yaml

import ApiPresence.Toml.Draft
import ApiPresence.Toml.Lexeme.Number
import ApiPresence.Toml.Lexeme.Text

namespace ApiPresence.Toml

open Text (isDigit)

/--
How deep brackets and braces may stand in each other, and how many parts a key may have, plus one.
-/
def depthLimit : Nat := 80

def readSimpleKey : Reader Key := fun text => do
  let (name, rest) ← match text with
    | '"' :: rest => do
      let (chars, rest) ← readBasic (rest.length + 1) rest
      .ok (String.ofList chars, rest)
    | '\'' :: rest => do
      let (chars, rest) ← readLiteral rest
      .ok (String.ofList chars, rest)
    | _ =>
      match text.takeWhile isBareChar with
      | [] => .error (.absent text .unknown)
      | chars => .ok (String.ofList chars, text.dropWhile isBareChar)
  .ok (⟨name, .between text rest⟩, rest)

/--
The parts of a key behind some, with points between them; a point that no part follows is left.
-/
def readMoreParts : (fuel : Nat) → Reader (List Key)
  | 0, text => .ok ([], text)
  | fuel + 1, text =>
    match text with
    | '.' :: rest =>
      match readSimpleKey (skipBlanks rest) with
      | .error fault => if fault.final then .error fault else .ok ([], text)
      | .ok (key, rest) => do
        let (keys, rest) ← readMoreParts fuel (skipBlanks rest)
        .ok (key :: keys, rest)
    | _ => .ok ([], text)

def readKey : Reader (List Key) := fun text => do
  let (keys, rest) ← (do
    let (key, rest) ← readSimpleKey (skipBlanks text)
    let (keys, rest) ← readMoreParts rest.length (skipBlanks rest)
    .ok (key :: keys, rest) : Except Fault (List Key × List Char)).mapError (.within "key")
  if depthLimit ≤ keys.length then .error (.absent text (.ofCause .recursionLimit))
  else .ok (keys, rest)

def readEquals (text : List Char) : Except Fault (List Char) :=
  match text with
  | '=' :: rest => .ok rest
  | rest => .error (.before rest (.wanted [quoted ".", quoted "="]))

/-- What is said where no value starts, as if a string were meant. -/
def noValue : Problem := ⟨some "string", [quoted "\"", quoted "'"], none⟩

def readWord (word : List Char) (final : Bool) (value : Scalar) : Reader Scalar := fun text =>
  if word.isPrefixOf text then .ok (value, text.drop word.length)
  else .error ⟨noValue, .next text, final⟩

def readScalar : Reader Scalar := fun text =>
  match text with
  | [] => .error (.absent [] .unknown)
  | c :: _ =>
    if c = '"' ∨ c = '\'' then do
      let (value, rest) ← readString text
      .ok (.string value, rest)
    else if c = '+' ∨ c = '-' ∨ isDigit c then do
      match ← readMoment text with
      | some rest => .ok (.moment, rest)
      | none => readNumber text
    else if c = '_' then
      .error (.absent text ⟨some "integer", ["leading digit"], none⟩)
    else if c = '.' then
      .error (.absent text ⟨some "floating-point number", ["leading digit"], none⟩)
    else if c = 't' then readWord ['t', 'r', 'u', 'e'] true (.boolean true) text
    else if c = 'f' then readWord ['f', 'a', 'l', 's', 'e'] true (.boolean false) text
    else if c = 'i' then readWord ['i', 'n', 'f'] false (.float (.infinite false)) text
    else if c = 'n' then readWord ['n', 'a', 'n'] false (.float .nan) text
    else .error (.absent text noValue)

mutual

/-- A value, `depth` levels being left for nesting. -/
def readValue : (fuel depth : Nat) → Reader Item
  | 0, _, text => .error (.absent text .unknown)
  | fuel + 1, depth, text =>
    match text with
    | '[' :: rest =>
      if depth ≤ 1 then .error (.before text (.ofCause .recursionLimit))
      else do
        let (items, rest) ← match rest with
          | ']' :: _ => .ok ([], rest)
          | _ => do
            let (items, rest) ← readItems fuel (depth - 1) rest
            let rest ← (skipGap rest.length rest).mapError .decisive
            .ok (items, rest)
        match rest with
        | ']' :: rest => .ok (.array items (.between text rest), rest)
        | rest => .error (.before rest ⟨some "array", [quoted "]"], none⟩)
    | '{' :: rest =>
      if depth ≤ 1 then .error (.before text (.ofCause .recursionLimit))
      else do
        let (pairs, after) ← readPairs fuel (depth - 1) rest
        match Entries.ofPairs pairs with
        | .error cause => .error (.before rest (.ofCause cause))
        | .ok entries =>
          match skipBlanks after with
          | '}' :: rest => .ok (.table .braces (some (.between text rest)) entries, rest)
          | rest => .error (.before rest ⟨some "inline table", [quoted "\x7d"], none⟩)
    | _ => do
      let (value, rest) ← readScalar text
      .ok (.scalar value (.between text rest), rest)

def readItems : (fuel depth : Nat) → Reader (List Item)
  | 0, _, text => .ok ([], text)
  | fuel + 1, depth, text =>
    match (do
      let start ← skipGap text.length text
      let (item, rest) ← readValue fuel depth start
      let rest ← skipGap rest.length rest
      .ok (item, rest) : Except Fault (Item × List Char)) with
    | .error fault => if fault.final then .error fault else .ok ([], text)
    | .ok (item, ',' :: rest) => do
      let (items, rest) ← readItems fuel depth rest
      .ok (item :: items, rest)
    | .ok (item, rest) => .ok ([item], rest)

/-- The pairs of an inline table, with commas between them; a comma that no pair follows is left. -/
def readPairs : (fuel depth : Nat) → Reader (List (List Key × Item))
  | 0, _, text => .ok ([], text)
  | fuel + 1, depth, text =>
    match readKey text with
    | .error fault => if fault.final then .error fault else .ok ([], text)
    | .ok (path, rest) => do
      let rest ← readEquals rest
      let (item, rest) ← (readValue fuel depth (skipBlanks rest)).mapError .decisive
      match skipBlanks rest with
      | ',' :: after => do
        let (pairs, rest) ← readPairs fuel depth after
        if pairs.isEmpty then .ok ([(path, item)], ',' :: after)
        else .ok ((path, item) :: pairs, rest)
      | rest => .ok ([(path, item)], rest)

end

def readKeyLine (d : Draft) (text : List Char) : Except Fault (Draft × List Char) := do
  let (path, rest) ← readKey text
  let rest ← readEquals rest
  let start := skipBlanks rest
  let (item, rest) ← readValue (2 * start.length + 2) depthLimit start
  let rest ← readLineEnd rest
  match d.add path item with
  | .ok d => .ok (d, rest)
  | .error cause => .error (.before text (.ofCause cause))

/-- A header after its brackets, which close as they have opened. -/
def readHeader (d : Draft) (repeated : Bool) (text inner : List Char) :
    Except Fault (Draft × List Char) := do
  let (path, rest) ← readKey inner
  let wanted := if repeated then "]]" else "]"
  let rest ←
    if wanted.toList.isPrefixOf rest then Except.ok (rest.drop wanted.length)
    else .error (.before rest (.wanted [quoted ".", quoted wanted]))
  let span := Span.between text rest
  let rest ← readLineEnd rest
  match d.start path repeated span with
  | .ok d => .ok (d, rest)
  | .error cause => .error (.before text (.ofCause cause))

def readLines : (fuel : Nat) → Draft → List Char → Except Fault Draft
  | 0, d, _ => .ok d
  | fuel + 1, d, text =>
    match text with
    | [] => .ok d
    | '#' :: _ => do
      let rest ← readBreak (skipComment text)
      readLines fuel d (skipBlanks rest)
    | ['['] => .error (.before text (.invalid "table header"))
    | '[' :: '[' :: rest => do
      let (d, rest) ← (readHeader d true text rest).mapError (.within "table header")
      readLines fuel d (skipBlanks rest)
    | '[' :: rest => do
      let (d, rest) ← (readHeader d false text rest).mapError (.within "table header")
      readLines fuel d (skipBlanks rest)
    | c :: _ =>
      if c = '\n' ∨ c = '\r' then
        match pastBreak? text with
        | some rest => readLines fuel d (skipBlanks rest)
        | none => .error (.before text .unknown)
      else do
        let (d, rest) ← readKeyLine d text
        readLines fuel d (skipBlanks rest)

/-- The entries of a text; a byte-order mark in front of it does not count. -/
def readEntries (text : List Char) : Except Fault Entries := do
  let text := match text with
    | '\ufeff' :: rest => rest
    | rest => rest
  let d ← readLines (text.length + 1) .empty (skipBlanks text)
  match d.joined with
  | .ok entries => .ok entries
  | .error cause => .error (.before [] (.ofCause cause))

end ApiPresence.Toml

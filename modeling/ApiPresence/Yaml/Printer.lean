import ApiPresence.Text
import ApiPresence.Tree
import ApiPresence.Yaml.Cursor
import ApiPresence.Yaml.Scalar

namespace ApiPresence.Yaml

open Text (hexDigits)

/-- Positional from a hundred-thousandth to below ten to the sixteenth, and no plus sign. -/
def floatNotation : FloatNotation := ⟨16, -5, false⟩

def numberText : Number → List Char
  | .whole value _ => FloatNotation.wholeOf value
  | .float (.finite negative rank) => floatNotation.text negative rank
  | .float (.infinite false) => ['.', 'i', 'n', 'f']
  | .float (.infinite true) => ['-', '.', 'i', 'n', 'f']
  | .float .nan => ['.', 'n', 'a', 'n']

/--
The characters that are written as they are: text without tabs, controls and byte-order marks.
-/
def isPlainText (c : Char) : Bool :=
  let n := c.toNat
  n = 10 || (32 ≤ n && n ≤ 0x7e) || (0xa0 ≤ n && n ≤ 0xfffd && n ≠ 0xfeff) || 0x10000 ≤ n

/-- The end of a text counts as a blank after its last character. -/
def startsBlank : List Char → Bool
  | [] => true
  | c :: _ => c = ' ' || c = '\t' || isBreak c

def hasLeadingIndicator : List Char → Bool
  | '-' :: '-' :: '-' :: _ => true
  | '.' :: '.' :: '.' :: _ => true
  | c :: rest =>
    c ∈ ['#', ',', '[', ']', '{', '}', '&', '*', '!', '|', '>', '\'', '"', '%', '@', '\x60']
      || (c ∈ ['?', ':', '-'] && startsBlank rest)
  | [] => false

/--
Whether a text holds, after its first character, a colon before a blank or a number sign after one.
-/
def hasInnerIndicator : List Char → Bool
  | previous :: c :: rest =>
    (c = ':' && startsBlank rest) || (c = '#' && startsBlank [previous])
      || hasInnerIndicator (c :: rest)
  | _ => false

def hasPair (first second : Char → Bool) : List Char → Bool
  | a :: b :: rest => (first a && second b) || hasPair first second (b :: rest)
  | _ => false

def endsWith (kind : Char → Bool) (text : List Char) : Bool := text.getLast?.any kind

def isSpace (c : Char) : Bool := c = ' '

def isPlainAllowed (text : List Char) : Bool :=
  text.all (fun c => isPlainText c && !isBreak c)
    && !text.head?.any isSpace && !endsWith isSpace text
    && !hasLeadingIndicator text && !hasInnerIndicator text

/-- Whether single quotes keep a text: spaces next to line breaks are lost in them. -/
def isSingleQuotedAllowed (text : List Char) : Bool :=
  text.all isPlainText && !hasPair isSpace isBreak text && !hasPair isBreak isSpace text

/-- Whether a block keeps a text: spaces before a line break or the end are lost in it. -/
def isBlockAllowed (text : List Char) : Bool :=
  text.all isPlainText && !endsWith isSpace text && !hasPair isSpace isBreak text

inductive Style where
  | plain
  | singleQuoted
  | doubleQuoted
  | literal
  deriving DecidableEq, Repr

/-- A text would not be read back as a string, or starts like a number, if it stood alone. -/
def needsQuotes (text : List Char) : Bool := resolve text != .string || isZeroPadded text

/--
The style of a string: blocks for several lines, and quotes only where a plain text would not do.
-/
def styleOf (text : List Char) : Style :=
  if '\n' ∈ text then
    if isBlockAllowed text then .literal else .doubleQuoted
  else if !needsQuotes text && isPlainAllowed text then .plain
  else if isSingleQuotedAllowed text then .singleQuoted
  else .doubleQuoted

def spaces (n : Nat) : List Char := List.replicate n ' '

def singleQuotedBody (indent : Nat) (afterBreak : Bool) : List Char → List Char
  | [] => if afterBreak then spaces indent else []
  | c :: rest =>
    if isBreak c then c :: singleQuotedBody indent true rest
    else
      (if afterBreak then spaces indent else []) ++ (if c = '\'' then ['\'', '\''] else [c])
        ++ singleQuotedBody indent false rest

def escape (c : Char) : List Char :=
  match c with
  | '\x00' => ['\\', '0']
  | '\x07' => ['\\', 'a']
  | '\x08' => ['\\', 'b']
  | '\t' => ['\\', 't']
  | '\n' => ['\\', 'n']
  | '\x0b' => ['\\', 'v']
  | '\x0c' => ['\\', 'f']
  | '\r' => ['\\', 'r']
  | '\x1b' => ['\\', 'e']
  | '"' => ['\\', '"']
  | '\\' => ['\\', '\\']
  | '\u0085' => ['\\', 'N']
  | '\u2028' => ['\\', 'L']
  | '\u2029' => ['\\', 'P']
  | c =>
    if isPlainText c then [c]
    else if c.toNat ≤ 0xff then '\\' :: 'x' :: hexDigits true c.toNat 2
    else if c.toNat ≤ 0xffff then '\\' :: 'u' :: hexDigits true c.toNat 4
    else '\\' :: 'U' :: hexDigits true c.toNat 8

def endsInBlankLine (text : List Char) : Bool :=
  match text.reverse with
  | [a] => isBreak a
  | a :: b :: _ => isBreak a && isBreak b
  | [] => false

/-- What follows `|`: the indentation if the text starts blank, and how its end is to be kept. -/
def blockHints (text : List Char) : List Char :=
  let indentation := if text.head?.any (fun c => isSpace c || isBreak c) then ['2'] else []
  let chomping :=
    if !endsWith isBreak text then ['-']
    else if endsInBlankLine text then ['+']
    else []
  indentation ++ chomping

/-- The lines of a block; a line that is not empty starts after `indent` spaces. -/
def blockBody (indent : Nat) (afterBreak : Bool) : List Char → List Char
  | [] => []
  | c :: rest =>
    if isBreak c then c :: blockBody indent true rest
    else (if afterBreak then spaces indent else []) ++ c :: blockBody indent false rest

def stringLines (indent : Nat) (s : String) : List Char :=
  let text := s.toList
  match styleOf text with
  | .plain => text ++ ['\n']
  | .singleQuoted => '\'' :: singleQuotedBody indent false text ++ ['\'', '\n']
  | .doubleQuoted => '"' :: text.flatMap escape ++ ['"', '\n']
  | .literal =>
    '|' :: blockHints text ++ '\n' :: blockBody indent true text
      ++ (if endsWith isBreak text then [] else ['\n'])

/-- Keys of one line and at most 128 octets stand before their colon without a question mark. -/
def isSimpleKey (key : String) : Bool := !key.toList.any isBreak && key.utf8ByteSize ≤ 128

/-- A simple key, which is on one line whatever its quotes. -/
def simpleKey (key : String) : List Char := (stringLines 0 key).dropLast

mutual

/--
A node after an indicator and a space, up to the end of its last line; its lines start after
`indent` spaces.
-/
def nodeLines (indent : Nat) : Tree → List Char
  | .null => ['n', 'u', 'l', 'l', '\n']
  | .bool true => ['t', 'r', 'u', 'e', '\n']
  | .bool false => ['f', 'a', 'l', 's', 'e', '\n']
  | .number n => numberText n ++ ['\n']
  | .string s => stringLines indent s
  | .array [] => ['[', ']', '\n']
  | .array (item :: rest) => '-' :: ' ' :: nodeLines (indent + 2) item ++ itemLines indent rest
  | .object [] => ['{', '}', '\n']
  | .object ((key, value) :: rest) => entryLines indent key value ++ memberLines indent rest

def itemLines (indent : Nat) : List Tree → List Char
  | [] => []
  | item :: rest =>
    spaces indent ++ '-' :: ' ' :: nodeLines (indent + 2) item ++ itemLines indent rest

def memberLines (indent : Nat) : List (String × Tree) → List Char
  | [] => []
  | (key, value) :: rest =>
    spaces indent ++ entryLines indent key value ++ memberLines indent rest

/-- A key and its value; below a simple key a sequence is not indented. -/
def entryLines (indent : Nat) (key : String) : Tree → List Char
  | .array (item :: rest) =>
    if isSimpleKey key then
      simpleKey key ++ ':' :: '\n' :: spaces indent ++ '-' :: ' ' :: nodeLines (indent + 2) item
        ++ itemLines indent rest
    else
      '?' :: ' ' :: stringLines (indent + 2) key ++ spaces indent ++ ':' :: ' ' :: '-' :: ' '
        :: nodeLines (indent + 4) item ++ itemLines (indent + 2) rest
  | .object ((k, v) :: rest) =>
    if isSimpleKey key then
      simpleKey key ++ ':' :: '\n' :: spaces (indent + 2) ++ entryLines (indent + 2) k v
        ++ memberLines (indent + 2) rest
    else
      '?' :: ' ' :: stringLines (indent + 2) key ++ spaces indent ++ ':' :: ' '
        :: entryLines (indent + 2) k v ++ memberLines (indent + 2) rest
  | value =>
    (if isSimpleKey key then simpleKey key
      else '?' :: ' ' :: stringLines (indent + 2) key ++ spaces indent)
      ++ ':' :: ' ' :: nodeLines (indent + 2) value

end

/-- The text of a document: strings on their own are indented, collections are not. -/
def print (tree : Tree) : String :=
  String.ofList (match tree with
    | .string s => stringLines 2 s
    | tree => nodeLines 0 tree)

end ApiPresence.Yaml

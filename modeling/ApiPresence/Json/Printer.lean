import ApiPresence.Number.Shortest
import ApiPresence.Text
import ApiPresence.Tree

namespace ApiPresence.Json

open Text (hexDigits)

/--
Positional from a hundred-thousandth to below ten to the sixteenth, and a sign in every exponent.
-/
def floatNotation : FloatNotation := ⟨16, -5, true⟩

/-- A character of a quoted text: quotes, backslashes and controls are escaped. -/
def escape (c : Char) : List Char :=
  match c with
  | '"' => ['\\', '"']
  | '\\' => ['\\', '\\']
  | '\x08' => ['\\', 'b']
  | '\x0c' => ['\\', 'f']
  | '\n' => ['\\', 'n']
  | '\r' => ['\\', 'r']
  | '\t' => ['\\', 't']
  | c =>
    if c.toNat < 32 then '\\' :: 'u' :: hexDigits false c.toNat 4
    else [c]

def quoted (s : String) : List Char := '"' :: s.toList.flatMap escape ++ ['"']

/-- Floats without a finite value have no text of their own and read `null`. -/
def numberText : Number → List Char
  | .whole value _ => FloatNotation.wholeOf value
  | .float (.finite negative rank) => floatNotation.text negative rank
  | .float _ => ['n', 'u', 'l', 'l']

/-- One line without spaces, or one entry a line with two spaces of indentation a level. -/
inductive Layout where
  | compact
  | pretty
  deriving DecidableEq, Repr

def Layout.lineBreak (layout : Layout) (level : Nat) : List Char :=
  match layout with
  | .compact => []
  | .pretty => '\n' :: List.replicate (2 * level) ' '

def Layout.colon : Layout → List Char
  | .compact => [':']
  | .pretty => [':', ' ']

mutual

def write (layout : Layout) (level : Nat) : Tree → List Char
  | .null => ['n', 'u', 'l', 'l']
  | .bool true => ['t', 'r', 'u', 'e']
  | .bool false => ['f', 'a', 'l', 's', 'e']
  | .number n => numberText n
  | .string s => quoted s
  | .array [] => ['[', ']']
  | .array (item :: rest) =>
    '[' :: layout.lineBreak (level + 1) ++ write layout (level + 1) item
      ++ writeItems layout (level + 1) rest ++ layout.lineBreak level ++ [']']
  | .object [] => ['{', '}']
  | .object ((key, value) :: rest) =>
    '{' :: layout.lineBreak (level + 1) ++ quoted key ++ layout.colon
      ++ write layout (level + 1) value
      ++ writeMembers layout (level + 1) rest ++ layout.lineBreak level ++ ['}']

def writeItems (layout : Layout) (level : Nat) : List Tree → List Char
  | [] => []
  | item :: rest =>
    ',' :: layout.lineBreak level ++ write layout level item ++ writeItems layout level rest

def writeMembers (layout : Layout) (level : Nat) : List (String × Tree) → List Char
  | [] => []
  | (key, value) :: rest =>
    ',' :: layout.lineBreak level ++ quoted key ++ layout.colon ++ write layout level value
      ++ writeMembers layout level rest

end

def print (layout : Layout) (tree : Tree) : String := String.ofList (write layout 0 tree)

def compact (tree : Tree) : String := print .compact tree

end ApiPresence.Json

import ApiPresence.Yaml.Syntax

namespace ApiPresence.Yaml

def isBreak (c : Char) : Bool :=
  c = '\n' || c = '\r' || c = '\u0085' || c = '\u2028' || c = '\u2029'

def isBlank (c : Char) : Bool := c = ' ' || c = '\t'

/-- The end of a text counts as a break. -/
def atBreak : List Char → Bool
  | [] => true
  | c :: _ => isBreak c

def atSpace : List Char → Bool
  | [] => true
  | c :: _ => isBlank c || isBreak c

def isWordChar (c : Char) : Bool :=
  ('0' ≤ c && c ≤ '9') || ('A' ≤ c && c ≤ 'Z') || ('a' ≤ c && c ≤ 'z') || c = '_' || c = '-'

/-- The rest of a text and the place where it starts. -/
structure Cursor where
  rest : List Char
  mark : Mark
  deriving Inhabited

namespace Cursor

def ofText (text : List Char) : Cursor := ⟨text, .start⟩

/-- Past some characters, none of which ends the line. -/
def skip (c : Cursor) (count : Nat) : Cursor :=
  ⟨c.rest.drop count, c.mark.forward (c.rest.take count)⟩

def startsWith (c : Cursor) (x : Char) : Bool := c.rest.head? == some x

def span (kind : Char → Bool) (c : Cursor) : List Char × Cursor :=
  let taken := c.rest.takeWhile kind
  (taken, c.skip taken.length)

def skipWhile (kind : Char → Bool) (c : Cursor) : Cursor := (c.span kind).2

/--
The line break in front of the cursor as it counts in a scalar: all but two read as a newline.
-/
def lineBreak (c : Cursor) : List Char × Cursor :=
  match c.rest with
  | '\r' :: '\n' :: rest => (['\n'], ⟨rest, c.mark.nextLine ['\r', '\n']⟩)
  | x :: rest =>
    if x = '\u2028' ∨ x = '\u2029' then ([x], ⟨rest, c.mark.nextLine [x]⟩)
    else if isBreak x then (['\n'], ⟨rest, c.mark.nextLine [x]⟩)
    else ([], c)
  | [] => ([], c)

def skipBreak (c : Cursor) : Cursor := c.lineBreak.2

/-- Three equal characters at the start of a line, followed by a space. -/
def isDocumentIndicator (c : Cursor) (x : Char) : Bool :=
  c.mark.column == 0 && c.rest.take 3 == [x, x, x] && atSpace (c.rest.drop 3)

def atDocumentIndicator (c : Cursor) : Bool :=
  c.isDocumentIndicator '-' || c.isDocumentIndicator '.'

def skipLineEnd (c : Cursor) : Cursor :=
  let c := c.skipWhile isBlank
  if c.startsWith '#' then c.skipWhile (fun x => !isBreak x) else c

def fail (c : Cursor) (problem : Problem) (activity : Activity) (start : Mark) :
    Except SyntaxError α :=
  .error (.malformed problem c.mark (some (activity, start)))

end Cursor
end ApiPresence.Yaml

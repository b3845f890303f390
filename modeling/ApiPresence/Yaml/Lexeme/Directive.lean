import ApiPresence.Yaml.Lexeme.Tag

namespace ApiPresence.Yaml

open Text (isDigit)

/-- A line in front of a document that says how to read it. -/
inductive Directive where
  | version (major minor : Nat)
  | tag (handle : List Char) (stem : Tag)
  deriving DecidableEq, Repr, Inhabited

namespace Directive

/-- A number of at most nine digits. -/
def readNumber (start : Mark) (c : Cursor) : Except SyntaxError (Nat × Cursor) :=
  let digits := c.rest.takeWhile isDigit
  if digits.length > 9 then (c.skip 9).fail .longVersionNumber .versionDirective start
  else if digits = [] then c.fail .expectedVersionNumber .versionDirective start
  else .ok (digitsValue digits, c.skip digits.length)

def readVersion (start : Mark) (c : Cursor) : Except SyntaxError (Directive × Cursor) := do
  let (major, c) ← readNumber start (c.skipWhile isBlank)
  if !c.startsWith '.' then c.fail .expectedDigitOrPoint .versionDirective start
  else
    let (minor, c) ← readNumber start (c.skip 1)
    .ok (.version major minor, c)

def readTag (start : Mark) (c : Cursor) : Except SyntaxError (Directive × Cursor) := do
  let (handle, c) ← TagName.readHandle true start (c.skipWhile isBlank)
  if !c.rest.head?.any isBlank then c.fail .expectedBlank .tagDirective start
  else
    let (stem, c) ←
      TagName.readUriAfter [] true .tagDirectiveUri start (c.skipWhile isBlank)
    if !atSpace c.rest then c.fail .expectedBlankOrBreak .tagDirective start
    else .ok (.tag handle stem, c)

def read (c : Cursor) : Except SyntaxError (Directive × Mark × Cursor) := do
  let start := c.mark
  let (name, next) := (c.skip 1).span isWordChar
  if name = [] then next.fail .expectedDirectiveName .directive start
  else if !atSpace next.rest then next.fail .nonAlphabetical .directive start
  else
    let (directive, c) ←
      if name = "YAML".toList then readVersion start next
      else if name = "TAG".toList then readTag start next
      else next.fail .unknownDirective .directive start
    let stop := c.mark
    let c := c.skipLineEnd
    if !atBreak c.rest then c.fail .expectedCommentOrBreak .directive start
    else .ok (directive, stop, c.skipBreak)

end Directive
end ApiPresence.Yaml

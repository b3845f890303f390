import ApiPresence.Text

namespace ApiPresence.Yaml

open Text (octets)

structure Mark where
  /-- The octets before it. -/
  index : Nat
  /-- The line breaks before it. -/
  line : Nat
  /-- The characters of its line before it. -/
  column : Nat
  deriving DecidableEq, Repr, Inhabited

namespace Mark

def start : Mark := ⟨0, 0, 0⟩

def forward (m : Mark) (text : List Char) : Mark :=
  ⟨m.index + octets text, m.line, m.column + text.length⟩

def nextLine (m : Mark) (text : List Char) : Mark := ⟨m.index + octets text, m.line + 1, 0⟩

def samePlace (m n : Mark) : Bool := m.line == n.line && m.column == n.column

/-- The place in a message, where the very start of a text goes without saying. -/
def suffix (m : Mark) : String :=
  if m.line = 0 ∧ m.column = 0 then ""
  else " at line " ++ Nat.repr (m.line + 1) ++ " column " ++ Nat.repr (m.column + 1)

end Mark

inductive Problem where
  | expectedColon
  | cannotStartToken
  | blockEntryNotAllowed
  | mappingKeyNotAllowed
  | mappingValueNotAllowed
  | unknownDirective
  | expectedDirectiveName
  | nonAlphabetical
  | expectedCommentOrBreak
  | expectedDigitOrPoint
  | longVersionNumber
  | expectedVersionNumber
  | expectedBlank
  | expectedBlankOrBreak
  | expectedAlphanumeric
  | expectedTagEnd
  | expectedBang
  | expectedTagUri
  | expectedEscapedOctet
  | badLeadingOctet
  | badTrailingOctet
  | zeroIndentation
  | tabInIndentation
  | tabViolatesIndentation
  | documentIndicatorInQuotes
  | endInQuotes
  | unknownEscape
  | expectedHexadecimal
  | invalidCharacterCode
  | unexpectedColon
  | expectedDocumentStart
  | duplicateVersionDirective
  | incompatibleVersion
  | duplicateTagDirective
  | undefinedTagHandle
  | expectedNodeContent
  | expectedBlockEntry
  | expectedKey
  | expectedCommaOrBracket
  | expectedCommaOrBrace
  deriving DecidableEq, Repr

def Problem.message : Problem → String
  | expectedColon => "could not find expected ':'"
  | cannotStartToken => "found character that cannot start any token"
  | blockEntryNotAllowed => "block sequence entries are not allowed in this context"
  | mappingKeyNotAllowed => "mapping keys are not allowed in this context"
  | mappingValueNotAllowed => "mapping values are not allowed in this context"
  | unknownDirective => "found unknown directive name"
  | expectedDirectiveName => "could not find expected directive name"
  | nonAlphabetical => "found unexpected non-alphabetical character"
  | expectedCommentOrBreak => "did not find expected comment or line break"
  | expectedDigitOrPoint => "did not find expected digit or '.' character"
  | longVersionNumber => "found extremely long version number"
  | expectedVersionNumber => "did not find expected version number"
  | expectedBlank => "did not find expected whitespace"
  | expectedBlankOrBreak => "did not find expected whitespace or line break"
  | expectedAlphanumeric => "did not find expected alphabetic or numeric character"
  | expectedTagEnd => "did not find the expected '>'"
  | expectedBang => "did not find expected '!'"
  | expectedTagUri => "did not find expected tag URI"
  | expectedEscapedOctet => "did not find URI escaped octet"
  | badLeadingOctet => "found an incorrect leading UTF-8 octet"
  | badTrailingOctet => "found an incorrect trailing UTF-8 octet"
  | zeroIndentation => "found an indentation indicator equal to 0"
  | tabInIndentation => "found a tab character where an indentation space is expected"
  | tabViolatesIndentation => "found a tab character that violates indentation"
  | documentIndicatorInQuotes => "found unexpected document indicator"
  | endInQuotes => "found unexpected end of stream"
  | unknownEscape => "found unknown escape character"
  | expectedHexadecimal => "did not find expected hexadecimal number"
  | invalidCharacterCode => "found invalid Unicode character escape code"
  | unexpectedColon => "found unexpected ':'"
  | expectedDocumentStart => "did not find expected <document start>"
  | duplicateVersionDirective => "found duplicate %YAML directive"
  | incompatibleVersion => "found incompatible YAML document"
  | duplicateTagDirective => "found duplicate %TAG directive"
  | undefinedTagHandle => "found undefined tag handle"
  | expectedNodeContent => "did not find expected node content"
  | expectedBlockEntry => "did not find expected '-' indicator"
  | expectedKey => "did not find expected key"
  | expectedCommaOrBracket => "did not find expected ',' or ']'"
  | expectedCommaOrBrace => "did not find expected ',' or '\x7d'"

inductive Activity where
  | simpleKey
  | nextToken
  | directive
  | versionDirective
  | tagDirective
  | tagDirectiveBang
  | tagDirectiveHandle
  | tagDirectiveUri
  | anchor
  | aliasName
  | tag
  | tagUri
  | blockScalar
  | quotedScalar
  | escape
  | plainScalar
  | node
  | blockNode
  | flowNode
  | blockSequence
  | blockMapping
  | flowSequence
  | flowMapping
  deriving DecidableEq, Repr

def Activity.message : Activity → String
  | simpleKey => "while scanning a simple key"
  | nextToken => "while scanning for the next token"
  | directive => "while scanning a directive"
  | versionDirective => "while scanning a %YAML directive"
  | tagDirective => "while scanning a %TAG directive"
  | tagDirectiveBang => "while scanning a tag directive"
  | tagDirectiveHandle => "while parsing a tag directive"
  | tagDirectiveUri => "while parsing a %TAG directive"
  | anchor => "while scanning an anchor"
  | aliasName => "while scanning an alias"
  | tag => "while scanning a tag"
  | tagUri => "while parsing a tag"
  | blockScalar => "while scanning a block scalar"
  | quotedScalar => "while scanning a quoted scalar"
  | escape => "while parsing a quoted scalar"
  | plainScalar => "while scanning a plain scalar"
  | node => "while parsing a node"
  | blockNode => "while parsing a block node"
  | flowNode => "while parsing a flow node"
  | blockSequence => "while parsing a block collection"
  | blockMapping => "while parsing a block mapping"
  | flowSequence => "while parsing a flow sequence"
  | flowMapping => "while parsing a flow mapping"

inductive SyntaxError where
  | malformed (problem : Problem) (mark : Mark) (context : Option (Activity × Mark))
  /-- A character that no text may hold, by the octets before it. -/
  | controlCharacter (offset : Nat)
  deriving DecidableEq, Repr

/-- The problem and its place, then what was being read and where that started, if elsewhere. -/
def SyntaxError.message : SyntaxError → String
  | .malformed problem mark context =>
    problem.message ++ mark.suffix ++ (match context with
      | none => ""
      | some (activity, start) =>
        ", " ++ activity.message ++ (if start.samePlace mark then "" else start.suffix))
  | .controlCharacter offset =>
    "control characters are not allowed"
      ++ (if offset = 0 then "" else " at position " ++ Nat.repr offset)

end ApiPresence.Yaml

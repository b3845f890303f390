import ApiPresence.Yaml.Lexeme.Gap

namespace ApiPresence.Yaml

structure PlainScalar where
  text : List Char
  /-- The end of its last stretch, in front of what follows it. -/
  stop : Mark
  /-- Whether a line break follows it. -/
  broken : Bool
  deriving Inhabited

namespace PlainScalar

def isFlowIndicator (c : Char) : Bool := c ∈ [',', '[', ']', '{', '}']

/-- In a flow collection a colon may not stand directly before an indicator. -/
def atBadColon (inFlow : Bool) : List Char → Bool
  | ':' :: c :: _ => inFlow && (isFlowIndicator c || c = '?')
  | _ => false

def stretch (inFlow : Bool) : List Char → List Char
  | [] => []
  | c :: rest =>
    if atSpace (c :: rest) || atBadColon inFlow (c :: rest) || (c = ':' && atSpace rest)
        || (inFlow && isFlowIndicator c) then []
    else c :: stretch inFlow rest

/-- The scalar at a cursor behind a gap; lines of it that are indented less do not belong to it. -/
def readMore (inFlow : Bool) (width : Nat) (start : Mark) : (fuel : Nat) → (stop : Mark) → Gap →
    Cursor → Except SyntaxError (PlainScalar × Cursor)
  | 0, stop, g, c => .ok (⟨[], stop, g.broken⟩, c)
  | fuel + 1, stop, g, c =>
    if c.atDocumentIndicator || c.startsWith '#' then .ok (⟨[], stop, g.broken⟩, c)
    else
      let taken := stretch inFlow c.rest
      let next := c.skip taken.length
      if atBadColon inFlow next.rest then next.fail .unexpectedColon .plainScalar start
      else if taken = [] then .ok (⟨[], stop, g.broken⟩, c)
      else do
        let text := g.folded ++ taken
        let (gap, after) ← Gap.read (some (width, start)) fuel .empty next
        if !atSpace next.rest || next.rest = [] then .ok (⟨text, next.mark, false⟩, next)
        else if !inFlow && after.mark.column < width then
          .ok (⟨text, next.mark, gap.broken⟩, after)
        else
          let (more, c) ← readMore inFlow width start fuel next.mark gap after
          .ok (⟨text ++ more.text, more.stop, more.broken⟩, c)

def read (inFlow : Bool) (width : Nat) (c : Cursor) : Except SyntaxError (PlainScalar × Cursor) :=
  readMore inFlow width c.mark (c.rest.length + 1) c.mark .empty c

end PlainScalar
end ApiPresence.Yaml

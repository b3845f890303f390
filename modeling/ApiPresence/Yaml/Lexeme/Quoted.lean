import ApiPresence.Yaml.Lexeme.Gap
import ApiPresence.Yaml.Scalar

namespace ApiPresence.Yaml.Quoted

open Text (digits?)

def hexadecimal? (count : Nat) (text : List Char) : Option Nat :=
  let digits := text.take count
  if digits.length = count then digits? 16 digits else none

/-- What a backslash and a character stand for: a character, or the number of digits of one. -/
def escape? (c : Char) : Option (Char ⊕ Nat) :=
  match c with
  | '0' => some (.inl '\x00')
  | 'a' => some (.inl '\x07')
  | 'b' => some (.inl '\x08')
  | 't' => some (.inl '\t')
  | '\t' => some (.inl '\t')
  | 'n' => some (.inl '\n')
  | 'v' => some (.inl '\x0b')
  | 'f' => some (.inl '\x0c')
  | 'r' => some (.inl '\r')
  | 'e' => some (.inl '\x1b')
  | ' ' => some (.inl ' ')
  | '"' => some (.inl '"')
  | '/' => some (.inl '/')
  | '\\' => some (.inl '\\')
  | 'N' => some (.inl '\u0085')
  | '_' => some (.inl '\u00a0')
  | 'L' => some (.inl '\u2028')
  | 'P' => some (.inl '\u2029')
  | 'x' => some (.inr 2)
  | 'u' => some (.inr 4)
  | 'U' => some (.inr 8)
  | _ => none

def readEscape (start : Mark) (c : Cursor) : Except SyntaxError (Char × Cursor) :=
  match c.rest[1]?.bind escape? with
  | none => c.fail .unknownEscape .escape start
  | some (.inl x) => .ok (x, c.skip 2)
  | some (.inr count) =>
    let c := c.skip 2
    match hexadecimal? count c.rest with
    | none => c.fail .expectedHexadecimal .escape start
    | some value =>
      if (0xd800 ≤ value ∧ value ≤ 0xdfff) ∨ 0x10ffff < value then
        c.fail .invalidCharacterCode .escape start
      else .ok (Char.ofNat value, c.skip count)

/--
The characters up to a space, the closing quote, or an escaped line break, and whether it was that.
-/
def readStretch (single : Bool) (start : Mark) : (fuel : Nat) → Cursor →
    Except SyntaxError (List Char × Bool × Cursor)
  | 0, c => .ok ([], false, c)
  | fuel + 1, c =>
    match c.rest with
    | [] => .ok ([], false, c)
    | x :: rest =>
      if atSpace (x :: rest) then .ok ([], false, c)
      else if single && x = '\'' then
        if rest.head? == some '\'' then do
          let (xs, broken, c) ← readStretch single start fuel (c.skip 2)
          .ok ('\'' :: xs, broken, c)
        else .ok ([], false, c)
      else if !single && x = '"' then .ok ([], false, c)
      else if !single && x = '\\' then
        if rest.head?.any isBreak then .ok ([], true, (c.skip 1).skipBreak)
        else do
          let (y, c) ← readEscape start c
          let (ys, broken, c) ← readStretch single start fuel c
          .ok (y :: ys, broken, c)
      else do
        let (xs, broken, c) ← readStretch single start fuel (c.skip 1)
        .ok (x :: xs, broken, c)

def quote (single : Bool) : Char := if single then '\'' else '"'

def readBody (single : Bool) (start : Mark) : (fuel : Nat) → Cursor →
    Except SyntaxError (List Char × Cursor)
  | 0, c => c.fail .endInQuotes .quotedScalar start
  | fuel + 1, c =>
    if c.atDocumentIndicator then c.fail .documentIndicatorInQuotes .quotedScalar start
    else if c.rest = [] then c.fail .endInQuotes .quotedScalar start
    else do
      let (text, escaped, c) ← readStretch single start fuel c
      if c.startsWith (quote single) then .ok (text, c.skip 1)
      else
        let (gap, c) ← Gap.read none fuel (if escaped then .escaped else .empty) c
        let (more, c) ← readBody single start fuel c
        .ok (text ++ gap.folded ++ more, c)

def read (single : Bool) (c : Cursor) : Except SyntaxError (List Char × Cursor) :=
  readBody single c.mark (c.rest.length + 1) (c.skip 1)

end ApiPresence.Yaml.Quoted

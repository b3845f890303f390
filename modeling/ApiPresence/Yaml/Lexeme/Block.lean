import ApiPresence.Yaml.Cursor

namespace ApiPresence.Yaml.Block

/-- What becomes of the line breaks at the end of a block. -/
inductive Chomping where
  | strip
  | clip
  | keep
  deriving DecidableEq, Repr

structure Header where
  chomping : Chomping
  /-- The indentation of the block beyond that around it, if it is given. -/
  indentation : Option Nat

def chomping? (c : Cursor) : Option Chomping :=
  match c.rest with
  | '+' :: _ => some .keep
  | '-' :: _ => some .strip
  | _ => none

def readIndentation (start : Mark) (c : Cursor) : Except SyntaxError (Option Nat × Cursor) :=
  match c.rest with
  | x :: _ =>
    if x = '0' then c.fail .zeroIndentation .blockScalar start
    else if '1' ≤ x ∧ x ≤ '9' then .ok (some (x.toNat - 48), c.skip 1)
    else .ok (none, c)
  | [] => .ok (none, c)

def readHeader (start : Mark) (c : Cursor) : Except SyntaxError (Header × Cursor) :=
  match chomping? c with
  | some chomping => do
    let (indentation, c) ← readIndentation start (c.skip 1)
    .ok (⟨chomping, indentation⟩, c)
  | none => do
    let (indentation, c) ← readIndentation start c
    match indentation, chomping? c with
    | some _, some chomping => .ok (⟨chomping, indentation⟩, c.skip 1)
    | _, _ => .ok (⟨.clip, indentation⟩, c)

/--
The blank lines at a cursor and the indentation behind them, and the widest indentation among them.
-/
structure Margin where
  breaks : List Char
  widest : Nat
  /-- The end of the last blank line. -/
  stop : Mark

def skipIndentation (width : Option Nat) (c : Cursor) : Cursor :=
  let spaces := (c.rest.takeWhile (· = ' ')).length
  match width with
  | some width => c.skip (min spaces (width - c.mark.column))
  | none => c.skip spaces

def readMargin (width : Option Nat) (start : Mark) : (fuel : Nat) → Margin → Cursor →
    Except SyntaxError (Margin × Cursor)
  | 0, m, c => .ok (m, c)
  | fuel + 1, m, c =>
    let c := skipIndentation width c
    let m := { m with widest := max m.widest c.mark.column }
    if (width.all (c.mark.column < ·)) && c.startsWith '\t' then
      c.fail .tabInIndentation .blockScalar start
    else
      let (lineBreak, next) := c.lineBreak
      if lineBreak = [] then .ok (m, c)
      else readMargin width start fuel ⟨m.breaks ++ lineBreak, m.widest, next.mark⟩ next

/-- The line break behind a line, and whether the line starts with a blank. -/
structure Pending where
  lineBreak : List Char
  blank : Bool

/--
What stands between two lines: in a folded block a single break between lines of text is a space.
-/
def join (folded : Bool) (pending : Pending) (breaks : List Char) (blank : Bool) : List Char :=
  if folded && pending.lineBreak == ['\n'] && !pending.blank && !blank then
    (if breaks = [] then [' '] else breaks)
  else pending.lineBreak ++ breaks

def readLines (folded : Bool) (chomping : Chomping) (width : Nat) (start : Mark) : (fuel : Nat) →
    Pending → Margin → Cursor → Except SyntaxError (List Char × Mark × Cursor)
  | 0, _, m, c => .ok ([], m.stop, c)
  | fuel + 1, pending, m, c =>
    if c.mark.column = width ∧ c.rest ≠ [] then do
      let blank := c.rest.head?.any isBlank
      let (line, next) := c.span (fun x => !isBreak x)
      let (lineBreak, next) := next.lineBreak
      let (margin, next) ←
        readMargin (some width) start fuel ⟨[], 0, next.mark⟩ next
      let (more, stop, next) ←
        readLines folded chomping width start fuel ⟨lineBreak, blank⟩ margin next
      .ok (join folded pending m.breaks blank ++ line ++ more, stop, next)
    else
      let tail := match chomping with
        | .strip => []
        | .clip => pending.lineBreak
        | .keep => pending.lineBreak ++ m.breaks
      .ok (tail, m.stop, c)

/-- The text of the block scalar at a cursor, the indentation around which is given, and its end. -/
def read (folded : Bool) (around : Int) (c : Cursor) :
    Except SyntaxError (List Char × Mark × Cursor) := do
  let start := c.mark
  let (header, c) ← readHeader start (c.skip 1)
  let c := c.skipLineEnd
  if !atBreak c.rest then c.fail .expectedCommentOrBreak .blockScalar start
  else
    let c := c.skipBreak
    let given := header.indentation.map fun n => if 0 ≤ around then around.toNat + n else n
    let (margin, c) ← readMargin given start (c.rest.length + 1) ⟨[], 0, c.mark⟩ c
    let width := given.getD (max margin.widest (max (around + 1).toNat 1))
    readLines folded header.chomping width start (c.rest.length + 1) ⟨[], false⟩ margin c

end ApiPresence.Yaml.Block

import ApiPresence.Yaml.Cursor
import ApiPresence.Yaml.Scalar
import ApiPresence.Yaml.Tag

namespace ApiPresence.Yaml

open Text (digits?)

/-- A tag as it is written: the handle, whose meaning a directive may set, and what follows it. -/
structure TagName where
  handle : List Char
  suffix : Tag
  deriving DecidableEq, Repr, Inhabited

namespace TagName

def isUriChar (verbatim : Bool) (c : Char) : Bool :=
  isWordChar c
    || c ∈ [';', '/', '?', ':', '@', '&', '=', '+', '$', '.', '%', '!', '~', '*', '\'', '(', ')']
    || (verbatim && c ∈ [',', '[', ']'])

def octet? : List Char → Option Nat
  | '%' :: a :: b :: _ => digits? 16 [a, b]
  | _ => none

def octetCount (lead : Nat) : Nat :=
  if lead < 0x80 then 1
  else if lead < 0xc0 then 0
  else if lead < 0xe0 then 2
  else if lead < 0xf0 then 3
  else if lead < 0xf8 then 4
  else 0

/-- The character of some octets, none if they are no shortest form of one. -/
def character? (octets : List Nat) : Option Char :=
  let value? := match octets with
    | [a] => some (a, 0)
    | [a, b] => some ((a - 0xc0) * 64 + (b - 0x80), 0x80)
    | [a, b, c] => some (((a - 0xe0) * 64 + (b - 0x80)) * 64 + (c - 0x80), 0x800)
    | [a, b, c, d] =>
      some ((((a - 0xf0) * 64 + (b - 0x80)) * 64 + (c - 0x80)) * 64 + (d - 0x80), 0x10000)
    | _ => none
  value?.bind fun (value, least) =>
    if least ≤ value ∧ value.isValidChar then some (Char.ofNat value) else none

def readTrailing (activity : Activity) (start : Mark) : (count : Nat) → Cursor →
    Except SyntaxError (List Nat × Cursor)
  | 0, c => .ok ([], c)
  | count + 1, c =>
    match octet? c.rest with
    | none => c.fail .expectedEscapedOctet activity start
    | some octet =>
      if octet < 0x80 ∨ 0xc0 ≤ octet then c.fail .badTrailingOctet activity start
      else do
        let (octets, c) ← readTrailing activity start count (c.skip 3)
        .ok (octet :: octets, c)

def readEscaped (activity : Activity) (start : Mark) (c : Cursor) :
    Except SyntaxError (Option Char × Cursor) :=
  match octet? c.rest with
  | none => c.fail .expectedEscapedOctet activity start
  | some lead =>
    if octetCount lead = 0 then c.fail .badLeadingOctet activity start
    else do
      let (octets, c) ← readTrailing activity start (octetCount lead - 1) (c.skip 3)
      .ok (character? (lead :: octets), c)

def readUri (verbatim : Bool) (activity : Activity) (start : Mark) : (fuel : Nat) → Cursor →
    Except SyntaxError (List (Option Char) × Cursor)
  | 0, c => .ok ([], c)
  | fuel + 1, c =>
    match c.rest with
    | [] => .ok ([], c)
    | x :: _ =>
      if x = '%' then do
        let (character, c) ← readEscaped activity start c
        let (more, c) ← readUri verbatim activity start fuel c
        .ok (character :: more, c)
      else if isUriChar verbatim x then do
        let (more, c) ← readUri verbatim activity start fuel (c.skip 1)
        .ok (some x :: more, c)
      else .ok ([], c)

/-- The characters of a tag behind some that are known; together there is at least one. -/
def readUriAfter (head : List Char) (verbatim : Bool) (activity : Activity) (start : Mark)
    (c : Cursor) : Except SyntaxError (Tag × Cursor) := do
  let (written, next) ← readUri verbatim activity start c.rest.length c
  if head = [] ∧ next.mark = c.mark then next.fail .expectedTagUri activity start
  else .ok (.ofWritten ((head.drop 1).map some ++ written), next)

/-- A bang, and a word with another bang behind it. -/
def readHandle (inDirective : Bool) (start : Mark) (c : Cursor) :
    Except SyntaxError (List Char × Cursor) :=
  if !c.startsWith '!' then
    c.fail .expectedBang (if inDirective then .tagDirectiveBang else .tag) start
  else
    let (word, next) := (c.skip 1).span isWordChar
    if next.startsWith '!' then .ok ('!' :: word ++ ['!'], next.skip 1)
    else if inDirective ∧ word ≠ [] then next.fail .expectedBang .tagDirectiveHandle start
    else .ok ('!' :: word, next)

/-- The name at a cursor, which is at a bang: in angle brackets, with a handle, or local. -/
def readName (c : Cursor) : Except SyntaxError (TagName × Cursor) :=
  let start := c.mark
  if c.rest[1]? = some '<' then do
    let (suffix, c) ← readUriAfter [] true .tagUri start (c.skip 2)
    if !c.startsWith '>' then c.fail .expectedTagEnd .tag start
    else .ok (⟨[], suffix⟩, c.skip 1)
  else do
    let (handle, c) ← readHandle false start c
    if 1 < handle.length ∧ handle.getLast? = some '!' then
      let (suffix, c) ← readUriAfter [] false .tagUri start c
      .ok (⟨handle, suffix⟩, c)
    else
      let (suffix, c) ← readUriAfter handle false .tagUri start c
      if suffix.text = [] then .ok (⟨[], .ofChars ['!']⟩, c)
      else .ok (⟨['!'], suffix⟩, c)

def read (inFlow : Bool) (c : Cursor) : Except SyntaxError (TagName × Cursor) := do
  let start := c.mark
  let (name, c) ← readName c
  if (inFlow && c.startsWith ',') || atSpace c.rest then .ok (name, c)
  else c.fail .expectedBlankOrBreak .tag start

end TagName
end ApiPresence.Yaml

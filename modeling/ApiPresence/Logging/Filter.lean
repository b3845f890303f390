import ApiPresence.Error
import ApiPresence.Logging
import ApiPresence.Text

namespace ApiPresence.LogFilter

open Text (isDigit digits?)

inductive Problem where
  | directive
  | level
  deriving DecidableEq, Repr

def Problem.message : Problem → String
  | directive => "invalid filter directive"
  | level =>
    "error parsing level filter: expected one of \"off\", \"error\", \"warn\", \"info\", "
      ++ "\"debug\", \"trace\", or a number 0-5"

def levelNames : List String := ["off", "error", "warn", "info", "debug", "trace"]

/-- A level is a name in letters of any case, or a number that counts the names. -/
def isLevel (text : List Char) : Bool :=
  let number := match text with
    | '+' :: rest => rest
    | rest => rest
  text = [] || levelNames.any (fun name => name.toList = text.map Char.toLower)
    || (number.all isDigit && (digits? 10 number).any (· ≤ 5))

inductive Part where
  | start
  | target
  | span
  | field (empty : Bool)
  | fields
  | afterSpan

def levelPart : Part → List Char → Except Problem (Option (List Char))
  | .start, [] | .target, [] | .span, [] | .field _, [] | .fields, [] | .afterSpan, [] => .ok none
  | .start, c :: rest =>
    if c = '[' then levelPart .span rest
    else if c ∈ ['-', ':', '_'] ∨ c.isAlphanum ∨ 0x80 ≤ c.toNat then levelPart .target rest
    else .error .directive
  | .target, c :: rest =>
    if c = '=' then .ok (some rest)
    else if c = '[' then levelPart .span rest
    else levelPart .target rest
  | .span, c :: rest =>
    if c = ']' then levelPart .afterSpan rest
    else if c = '{' then levelPart (.field true) rest
    else levelPart .span rest
  | .field empty, c :: rest =>
    if c = '}' then if empty then .error .directive else levelPart .fields rest
    else levelPart (.field false) rest
  | .fields, c :: rest => if c = ']' then levelPart .afterSpan rest else .error .directive
  | .afterSpan, c :: rest => if c = '=' then .ok (some rest) else .error .directive

def isSpace (c : Char) : Bool := c = ' ' || ('\t' ≤ c && c ≤ '\r')

/--
Checks one directive. Blanks around it do not count, but a level is taken as far in as without them.
-/
def checkDirective (text : List Char) : Except Problem Unit := do
  let trimmed := ((text.dropWhile isSpace).reverse.dropWhile isSpace).reverse
  match ← levelPart .start trimmed with
  | none => .ok ()
  | some level =>
    if isLevel (text.drop (trimmed.length - level.length)) then .ok () else .error .level

def parts (text : List Char) : List (List Char) := split [] text
where
  split (part : List Char) : List Char → List (List Char)
    | [] => [part.reverse]
    | ',' :: rest => part.reverse :: split [] rest
    | c :: rest => split (c :: part) rest

def check (filter : String) : Except Problem Unit :=
  ((parts filter.toList).filter (· ≠ [])).forM checkDirective

def error? (filter : String) : Option RunError :=
  match check filter with
  | .ok () => none
  | .error problem =>
    some (.config ("Invalid log filter '" ++ filter ++ "': " ++ problem.message))

end ApiPresence.LogFilter

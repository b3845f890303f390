import ApiPresence.Text

namespace ApiPresence.Toml

open Text (octets)

/--
A stretch of a text: the octets from its start to the end of the text, and how many of them it has.
-/
structure Span where
  unread : Nat
  size : Nat
  deriving DecidableEq, Repr

namespace Span

def between (start stop : List Char) : Span := ⟨octets start, octets start - octets stop⟩

def through (first last : Span) : Span := ⟨first.unread, first.unread - (last.unread - last.size)⟩

/-- The character in front of a rest, or its end. -/
def next : List Char → Span
  | [] => ⟨0, 0⟩
  | c :: rest => ⟨octets (c :: rest), c.utf8Size⟩

end Span

/-- Why something well formed cannot stand where it does. -/
inductive Cause where
  /-- A key that a table has already; the table is not told apart where keys with dots meet. -/
  | duplicateKey (key : String) (table : Option (List String))
  /-- Keys that lead into a value of another type. -/
  | extendsValue (path : List String) (type : String)
  | outOfRange
  | tooLarge
  | tooSmall
  | recursionLimit
  deriving DecidableEq, Repr

def Cause.message : Cause → String
  | .duplicateKey key none => "duplicate key `" ++ key ++ "`"
  | .duplicateKey key (some []) => "duplicate key `" ++ key ++ "` in document root"
  | .duplicateKey key (some path) =>
    "duplicate key `" ++ key ++ "` in table `" ++ String.intercalate "." path ++ "`"
  | .extendsValue path type =>
    "dotted key `" ++ String.intercalate "." path ++ "` attempted to extend non-table type ("
      ++ type ++ ")"
  | .outOfRange => "value is out of range"
  | .tooLarge => "number too large to fit in target type"
  | .tooSmall => "number too small to fit in target type"
  | .recursionLimit => "recursion limit exceeded"

/-- What is wrong at a place: what cannot be read there, what might stand there, and why. -/
structure Problem where
  subject : Option String
  expected : List String
  cause : Option Cause
  deriving DecidableEq, Repr

namespace Problem

def unknown : Problem := ⟨none, [], none⟩

def ofCause (cause : Cause) : Problem := ⟨none, [], some cause⟩

def invalid (subject : String) : Problem := ⟨some subject, [], none⟩

def wanted (expected : List String) : Problem := ⟨none, expected, none⟩

def message (p : Problem) : String :=
  String.intercalate "\n" (
    (p.subject.map ("invalid " ++ ·)).toList
      ++ (if p.expected = [] then [] else ["expected " ++ String.intercalate ", " p.expected])
      ++ (p.cause.map Cause.message).toList)

end Problem

/-- A problem at a place; unless it is final, something else may be read there. -/
structure Fault where
  problem : Problem
  place : Span
  final : Bool
  deriving DecidableEq, Repr

namespace Fault

def before (rest : List Char) (problem : Problem) : Fault := ⟨problem, .next rest, true⟩

def absent (rest : List Char) (problem : Problem) : Fault := ⟨problem, .next rest, false⟩

def decisive (f : Fault) : Fault := { f with final := true }

/-- Says what is being read, unless something smaller is named already. -/
def within (subject : String) (f : Fault) : Fault :=
  { f with problem := { f.problem with subject := some (f.problem.subject.getD subject) } }

def orWanted (expected : List String) (f : Fault) : Fault :=
  { f with problem := { f.problem with expected := f.problem.expected ++ expected } }

end Fault

abbrev Reader (α : Type) := List Char → Except Fault (α × List Char)

def quoted (c : String) : String := "`" ++ c ++ "`"

end ApiPresence.Toml

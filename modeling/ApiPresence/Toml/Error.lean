import ApiPresence.Toml.Problem

namespace ApiPresence.Toml

open Text (octets)

structure Error where
  text : List Char
  span : Span
  reason : String
  deriving DecidableEq, Repr

def splitAtOctet : (count : Nat) → List Char → List Char × List Char
  | _, [] => ([], [])
  | count, c :: rest =>
    if count < c.utf8Size then ([], c :: rest)
    else
      let (before, after) := splitAtOctet (count - c.utf8Size) rest
      (c :: before, after)

def lastLine (text : List Char) : List Char := (text.reverse.takeWhile (· ≠ '\n')).reverse

/-- A line of a text, how many are in front of it, and a column in it. -/
structure Place where
  line : Nat
  column : Nat
  content : List Char
  deriving DecidableEq, Repr

/--
The place between two parts of a text. The end of a text counts to the line of its last character;
in front of a character beyond ASCII, the column counts octets.
-/
def Place.between (before after : List Char) : Place :=
  match after with
  | [] =>
    let shown := before.dropLast
    let content := lastLine (if before.getLast? = some '\n' then shown else before)
    ⟨shown.count '\n', (lastLine shown).length + 1, content⟩
  | c :: _ =>
    let line := lastLine before
    ⟨before.count '\n', if c.toNat < 0x80 then line.length else octets line,
      line ++ after.takeWhile (· ≠ '\n')⟩

def blanks (n : Nat) : String := String.ofList (List.replicate n ' ')

namespace Error

def ofFault (text : List Char) (fault : Fault) : Error :=
  ⟨text, fault.place, fault.problem.message⟩

/-- The line in question with the stretch marked below it, and the reason. -/
def message (e : Error) : String :=
  let (before, after) := splitAtOctet (octets e.text - e.span.unread) e.text
  let place := Place.between before after
  let number := Nat.repr (place.line + 1)
  let margin := blanks (number.length + 1) ++ "|"
  let marks := max 1 (min e.span.size (octets place.content - place.column))
  "TOML parse error at line " ++ number ++ ", column " ++ Nat.repr (place.column + 1) ++ "\n"
    ++ margin ++ "\n"
    ++ number ++ " | " ++ String.ofList place.content ++ "\n"
    ++ margin ++ blanks (place.column + 1) ++ String.ofList (List.replicate marks '^') ++ "\n"
    ++ e.reason ++ "\n"

end Error
end ApiPresence.Toml

import ApiPresence.CommandLine.Argument
import ApiPresence.Text.Similarity

namespace ApiPresence

/-- Why a command line is not taken. The arguments in use are named in the usage. -/
inductive Refusal where
  /--
  Nothing has this name, perhaps because another one is meant, or because it is meant as a value.
  -/
  | unknown (argument : String) (similar : Option Argument) (asValue : Bool) (used : List Argument)
  | repeated (argument : Argument)
  | conflict (former other : Argument) (used : List Argument)
  | missingValue (argument : Argument)
  | invalidValue (argument : Argument) (value : String)
  | unneededValue (argument : Argument) (value : String) (used : List Argument)
  deriving DecidableEq, Repr

namespace Refusal

def usageOf (used : List Argument) : String :=
  let options := (used.filter (· ≠ .document)).eraseDups.map Argument.label
  let shown :=
    if used = [] then ["[OPTIONS]", "[DOCUMENT]"]
    else options ++ [if .document ∈ used then "<DOCUMENT>" else "[DOCUMENT]"]
  "Usage: apicheck " ++ String.intercalate " " shown

def headline : Refusal → String
  | unknown argument _ _ _ => "unexpected argument '" ++ argument ++ "' found"
  | repeated argument => "the argument '" ++ argument.label ++ "' cannot be used multiple times"
  | conflict former other _ =>
    "the argument '" ++ former.label ++ "' cannot be used with '" ++ other.label ++ "'"
  | missingValue argument =>
    "a value is required for '" ++ argument.label ++ "' but none was supplied"
  | invalidValue argument value =>
    "invalid value '" ++ value ++ "' for '" ++ argument.label ++ "'"
  | unneededValue argument value _ =>
    "unexpected value '" ++ value ++ "' for '" ++ argument.label
      ++ "' found; no more were expected"

def choices : Refusal → String
  | missingValue argument | invalidValue argument _ =>
    if argument.possibleValues = [] then ""
    else "\n  [possible values: " ++ String.intercalate ", " argument.possibleValues ++ "]"
  | _ => ""

def tip? : Refusal → Option String
  | unknown argument similar asValue _ =>
    match similar.bind Argument.longName? with
    | some name => some ("a similar argument exists: '--" ++ name ++ "'")
    | none =>
      if asValue then
        some ("to pass '" ++ argument ++ "' as a value, use '-- " ++ argument ++ "'")
      else none
  | invalidValue argument value =>
    (Text.closest? value argument.possibleValues).map fun name =>
      "a similar value exists: '" ++ name ++ "'"
  | _ => none

def usage? : Refusal → Option String
  | unknown _ _ _ used | conflict _ _ used | unneededValue _ _ used => some (usageOf used)
  | repeated _ => some (usageOf [])
  | missingValue _ | invalidValue _ _ => none

def message (r : Refusal) : String :=
  "error: " ++ r.headline ++ r.choices
    ++ (r.tip?.elim "" fun tip => "\n\n  tip: " ++ tip)
    ++ (r.usage?.elim "" fun usage => "\n\n" ++ usage)
    ++ "\n\nFor more information, try '--help'.\n"

end Refusal
end ApiPresence

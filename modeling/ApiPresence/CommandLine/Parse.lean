import ApiPresence.CommandLine.Help
import ApiPresence.CommandLine.Refusal

namespace ApiPresence

/-- What keeps a command line from being carried out. -/
inductive Stop where
  | help (long : Bool)
  | version
  | refused (refusal : Refusal)
  deriving DecidableEq, Repr

namespace Stop

def message (title : String) : Stop → String
  | help long => Help.text title long
  | version => Help.version
  | refused refusal => refusal.message

def exitCode : Stop → Nat
  | help _ | version => 0
  | refused _ => 2

end Stop

namespace CommandLine

/-- What is known behind some words of a command line. -/
structure State where
  invocation : Invocation
  /-- The arguments in use, the latest last. -/
  present : List Argument
  /-- An argument whose value is still to come, or to be taken in. -/
  pending : Option (Argument × Option String)
  /-- All words are values, because a double hyphen stands in front of them. -/
  valuesOnly : Bool
  deriving DecidableEq, Repr

namespace State

def start : State := ⟨.empty, [], none, false⟩

def refuse (refusal : Refusal) : Except Stop α := .error (.refused refusal)

/-- Takes in a value; none and an empty one are as good as missing. -/
def assign (s : State) (a : Argument) (value : String) : Except Stop Invocation :=
  if value = "" then refuse (.missingValue a)
  else match a with
    | .document => .ok { s.invocation with document := some value }
    | .config => .ok { s.invocation with config := some value }
    | .output =>
      match OutputFormat.names.lookup value with
      | some format => .ok { s.invocation with output := some format }
      | none => refuse (.invalidValue a value)
    | _ => .ok s.invocation

/-- Uses an argument that has a value; it may be used only once. -/
def accept (s : State) (a : Argument) (value : Option String) : Except Stop State :=
  match value with
  | none => refuse (.missingValue a)
  | some value =>
    if a ∈ s.present then refuse (.repeated a)
    else do
      let invocation ← s.assign a value
      .ok { s with invocation, present := s.present ++ [a] }

def settle (s : State) : Except Stop State :=
  match s.pending with
  | none => .ok s
  | some (a, value) => { s with pending := none }.accept a value

/-- The arguments in use once the pending value has been looked at, whether it is taken or not. -/
def presentAtLast (s : State) : List Argument :=
  match s.pending with
  | some (a, some _) => if a ∈ s.present then s.present.erase a else s.present ++ [a]
  | _ => s.present

/-- The most that is counted of an argument that may be repeated. -/
def countLimit : Nat := 255

def use (s : State) (a : Argument) (long : Bool) : Except Stop State := do
  let s ← s.settle
  match a with
  | .help => .error (.help long)
  | .version => .error .version
  | .verbose =>
    .ok { s with
      invocation := { s.invocation with verbose := min countLimit (s.invocation.verbose + 1) }
      present := s.present.erase a ++ [a] }
  | _ =>
    if a ∈ s.present then refuse (.repeated a)
    else
      let invocation :=
        if a = .quiet then { s.invocation with quiet := true }
        else { s.invocation with noColor := true }
      .ok { s with invocation, present := s.present ++ [a] }

def await (s : State) (a : Argument) : Except Stop State := do
  let s ← s.settle
  .ok { s with pending := some (a, none) }

def attach (s : State) (a : Argument) (value : List Char) : Except Stop State := do
  let s ← s.settle
  s.accept a (some (String.ofList value))

/-- A name that no argument has; if it is like one of them, that one is in use in the usage. -/
def unknownLong (s : State) (name : String) : Except Stop State :=
  let similar :=
    (Text.closest? name (Argument.all.filterMap Argument.longName?)).bind Argument.ofLongName?
  let present := s.presentAtLast
  let used := match similar with
    | some a => if a ∈ present then present else present ++ [a]
    | none => present
  refuse (.unknown ("--" ++ name) similar true used)

def readLong (s : State) (word : List Char) : Except Stop State :=
  let name := String.ofList (word.takeWhile (· ≠ '='))
  let value? := match word.dropWhile (· ≠ '=') with
    | _ :: value => some value
    | [] => none
  match Argument.ofLongName? name with
  | none => s.unknownLong name
  | some a =>
    match a.takesValue, value? with
    | true, some value => s.attach a value
    | true, none => s.await a
    | false, some value =>
      refuse (.unneededValue a (String.ofList value) (s.present ++ [a]))
    | false, none => s.use a true

/-- Letters behind one hyphen; what follows a letter that takes a value is its value. -/
def readLetters (s : State) : List Char → Except Stop State
  | [] => .ok s
  | c :: rest =>
    match Argument.ofLetter? c with
    | none => refuse (.unknown ("-" ++ c.toString) none true [])
    | some a =>
      if a.takesValue then
        match rest with
        | [] => s.await a
        | '=' :: value => s.attach a value
        | value => s.attach a value
      else do
        let s ← s.use a false
        s.readLetters rest

def hasDocument (s : State) : Bool :=
  .document ∈ s.present || s.pending.any (·.1 = .document)

def readValue (s : State) (word : String) : Except Stop State :=
  if s.hasDocument then refuse (.unknown word none false [])
  else do
    let s ← s.settle
    .ok { s with pending := some (.document, some word) }

def step (s : State) (word : String) : Except Stop State :=
  if s.valuesOnly then s.readValue word
  else match word.toList with
    | ['-', '-'] => .ok { s with valuesOnly := true }
    | '-' :: '-' :: rest => s.readLong rest
    | '-' :: c :: rest => s.readLetters (c :: rest)
    | _ =>
      match s.pending with
      | some (a, none) => .ok { s with pending := some (a, some word) }
      | _ => s.readValue word

/-- The arguments that cannot go together, the earlier one first. -/
def conflict? (s : State) : Option (Argument × Argument) :=
  match s.present.filter fun a => a = .quiet || a = .verbose with
  | former :: other :: _ => some (former, other)
  | _ => none

def finish (s : State) : Except Stop Invocation := do
  let s ← s.settle
  match s.conflict? with
  | some (former, other) =>
    refuse (.conflict former other (s.present.filter (· ≠ other)))
  | none => .ok s.invocation

end State

/-- What a command line asks for; the program's own name is not one of the words. -/
def parse (words : List String) : Except Stop Invocation := do
  let s ← words.foldlM State.step .start
  s.finish

end CommandLine

def OutputFormat.ofWord? (ignoreCase : Bool) (word : String) : Option OutputFormat :=
  let fold (s : String) : List Char := if ignoreCase then s.toList.map Char.toLower else s.toList
  OutputFormat.all.find? fun format => fold format.name = fold word

end ApiPresence

import ApiPresence.Toml.Item

namespace ApiPresence.Toml

abbrev Entries := List (Key × Item)

namespace Entries

def find? (name : String) (entries : Entries) : Option (Key × Item) :=
  List.find? (fun entry => entry.1.name = name) entries

def replace (name : String) (item : Item) (entries : Entries) : Entries :=
  entries.map fun entry => if entry.1.name = name then (entry.1, item) else entry

def erase (name : String) (entries : Entries) : Entries :=
  entries.filter fun entry => entry.1.name ≠ name

end Entries

def isBareChar (c : Char) : Bool :=
  ('A' ≤ c && c ≤ 'Z') || ('a' ≤ c && c ≤ 'z') || ('0' ≤ c && c ≤ '9') || c = '-' || c = '_'

def escapeChar (c : Char) : List Char :=
  match c with
  | '\x08' => ['\\', 'b']
  | '\t' => ['\\', 't']
  | '\n' => ['\\', 'n']
  | '\x0c' => ['\\', 'f']
  | '\r' => ['\\', 'r']
  | '"' => ['\\', '"']
  | '\\' => ['\\', '\\']
  | c =>
    if c.toNat < 0x20 ∨ c.toNat = 0x7f then '\\' :: 'u' :: Text.hexDigits true c.toNat 4 else [c]

/--
A key as it might be written: bare, in quotes, or in apostrophes where quotes would need escapes.
-/
def writtenKey (name : String) : String :=
  let chars := name.toList
  let isControl (c : Char) : Bool := (c.toNat < 0x20 && c ≠ '\t') || c.toNat = 0x7f
  if chars ≠ [] ∧ chars.all isBareChar then name
  else if ¬ chars.any isControl ∧ ('"' ∈ chars ∨ '\\' ∈ chars) ∧ '\'' ∉ chars then
    "'" ++ name ++ "'"
  else "\"" ++ String.ofList (chars.flatMap escapeChar) ++ "\""

def takenHeader (parents : List Key) (key : Key) : Cause :=
  .duplicateKey (writtenKey key.name) (some (parents.map Key.name))

/--
What goes along a path of keys into tables: the parts of a header, of a key with dots, or of one in
braces.
-/
inductive Route where
  | header
  | dotted
  | dottedInBraces
  deriving DecidableEq, Repr

def Route.origin : Route → Origin
  | header => .parent
  | dotted => .dotted
  | dottedInBraces => .dottedInBraces

def Route.check (route : Route) (seen : List Key) (key : Key) (item : Item) (origin : Origin) :
    Except Cause Unit :=
  match route, origin with
  | .dottedInBraces, .dottedInBraces => .ok ()
  | .dottedInBraces, _ => .error (.duplicateKey key.name none)
  | _, .braces | _, .dottedInBraces =>
    .error (.extendsValue ((seen ++ [key]).map Key.name) item.typeName)
  | .dotted, .header => .error (.duplicateKey key.name none)
  | _, _ => .ok ()

/-- Changes the table that a path leads to; tables that are missing on the way are made. -/
def alter (route : Route) (edit : Origin → Entries → Except Cause Entries) :
    (seen path : List Key) → Origin → Entries → Except Cause Entries
  | _, [], origin, entries => edit origin entries
  | seen, key :: path, _, entries =>
    match entries.find? key.name with
    | none => do
      let inner ← alter route edit (seen ++ [key]) path route.origin []
      .ok (entries ++ [(key, .table route.origin none inner)])
    | some (_, .table origin span inner) => do
      route.check seen key (.table origin span inner) origin
      let inner ← alter route edit (seen ++ [key]) path origin inner
      .ok (entries.replace key.name (.table origin span inner))
    | some (_, .tables items) =>
      match items.getLast? with
      | some (.table origin span inner) => do
        let inner ← alter route edit (seen ++ [key]) path origin inner
        .ok (entries.replace key.name (.tables (items.dropLast ++ [.table origin span inner])))
      | _ => .ok entries
    | some (_, item) => .error (.extendsValue ((seen ++ [key]).map Key.name) item.typeName)

/--
Adds an item under its key; keys with dots do not add to a table that has come about in another way.
-/
def addEntry (dotted : Bool) (table : Option (List String)) (key : Key) (item : Item)
    (origin : Origin) (entries : Entries) : Except Cause Entries :=
  let isDotted := origin = .dotted ∨ origin = .dottedInBraces
  if dotted ∧ ¬ isDotted then .error (.duplicateKey key.name none)
  else match entries.find? key.name with
    | some _ => .error (.duplicateKey key.name table)
    | none => .ok (entries ++ [(key, item)])

end ApiPresence.Toml

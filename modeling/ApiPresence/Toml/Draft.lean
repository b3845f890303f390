import ApiPresence.Toml.Table

namespace ApiPresence.Toml

/--
A document in the making: what stands in front of the last header, and the table of that header,
which joins the rest when the next one comes.
-/
structure Draft where
  root : Entries
  path : List Key
  /-- The header stands in double brackets. -/
  repeated : Bool
  span : Option Span
  entries : Entries

namespace Draft

def empty : Draft := ⟨[], [], false, none, []⟩

def split (path : List Key) : Option (List Key × Key) :=
  path.getLast?.map fun key => (path.dropLast, key)

def joined (d : Draft) : Except Cause Entries :=
  match split d.path with
  | none => .ok d.entries
  | some (parents, key) =>
    let table := Item.table .header d.span d.entries
    alter .header (fun _ entries =>
      match entries.find? key.name with
      | none => .ok (entries ++ [(key, if d.repeated then .tables [table] else table)])
      | some (_, .tables items) =>
        if d.repeated then .ok (entries.replace key.name (.tables (items ++ [table])))
        else .error (takenHeader parents key)
      | some _ => .error (takenHeader parents key)) [] parents .header d.root

/--
What a header of a table finds under its last key: nothing, or the entries of a table that only
headers inside it have named, which the header takes over.
-/
def claim (parents : List Key) (key : Key) (entries : Entries) : Except Cause Entries :=
  match entries.find? key.name with
  | none => .ok []
  | some (_, .table .parent _ inner) => .ok inner
  | some _ => .error (takenHeader parents key)

def entriesAt (entries : Entries) : List Key → Entries
  | [] => entries
  | key :: path =>
    match entries.find? key.name with
    | some (_, .table _ _ inner) => entriesAt inner path
    | some (_, .tables items) =>
      match items.getLast? with
      | some (.table _ _ inner) => entriesAt inner path
      | _ => []
    | _ => []

def start (d : Draft) (path : List Key) (repeated : Bool) (span : Span) : Except Cause Draft := do
  let root ← d.joined
  match split path with
  | none => .ok { d with root, path, repeated, span := some span, entries := [] }
  | some (parents, key) =>
    if repeated then do
      let root ← alter .header (fun _ entries =>
        match entries.find? key.name with
        | none | some (_, .tables _) => .ok entries
        | some _ => .error (takenHeader parents key)) [] parents .header root
      .ok ⟨root, path, true, some span, []⟩
    else do
      let root ← alter .header (fun _ entries => .ok entries) [] parents .header root
      let inner ← claim parents key (entriesAt root parents)
      let root ← alter .header (fun _ entries => .ok (entries.erase key.name)) [] parents .header
        root
      .ok ⟨root, path, false, some span, inner⟩

/-- Adds an item under the keys in front of it to the table of the last header. -/
def add (d : Draft) (path : List Key) (item : Item) : Except Cause Draft :=
  match split path with
  | none => .ok d
  | some (parents, key) => do
    let entries ← alter .dotted
      (addEntry (parents ≠ []) (some (d.path.map Key.name)) key item) [] parents .header d.entries
    let span := match d.span, item.span? with
      | some header, some value => some (header.through value)
      | span, _ => span
    .ok { d with entries, span }

end Draft

def Entries.ofPairs (pairs : List (List Key × Item)) : Except Cause Entries :=
  pairs.foldlM (fun entries (path, item) =>
    match Draft.split path with
    | none => .ok entries
    | some (parents, key) =>
      alter .dottedInBraces (addEntry (parents ≠ []) none key item) [] parents .braces entries) []

end ApiPresence.Toml

import ApiPresence.Yaml.Load

namespace ApiPresence.Yaml

def wrongNode (node : Node) (expected : String) : Error :=
  match node with
  | .scalar tag text style =>
    match Content.ofScalar tag false text style with
    | .ok content => mismatch (.wrongType content.found expected)
    | .error m => mismatch m
  | .sequenceStart _ => mismatch (.wrongType .sequence expected)
  | .mappingStart _ => mismatch (.wrongType .map expected)
  | .aliasOf _ | .sequenceEnd | .mappingEnd | .void => .endOfStream

structure Field (σ : Type) where
  name : String
  isSet : σ → Bool
  read : Document → Path → σ → Progress → Except Error (σ × Progress)

namespace Document

/-- Reads a node, or what the name in its place stands for. -/
def throughName (d : Document) (read : Node → Mark → Progress → Except Error (α × Progress))
    (p : Progress) : Except Error (α × Progress) := do
  match ← d.peek p with
  | (.aliasOf number, _) =>
    let inner ← d.jump number p
    let (node, mark) ← d.peek inner
    let (value, inner) ← read node mark inner
    .ok (value, returnTo p inner)
  | (node, mark) => read node mark p

def readText (d : Document) (expected : String) (path : Path) :
    Progress → Except Error (String × Progress) :=
  d.throughName fun node mark p =>
    located path mark (match node with
      | .scalar _ text _ => .ok (String.ofList text, next p)
      | node => .error (wrongNode node expected))

def isValueScalar (type : String) (tag : Option Tag) : ScalarStyle → Bool
  | .plain => true
  | .literal => tag = some (.standard type)
  | _ => false

def readBool (d : Document) (path : Path) : Progress → Except Error (Bool × Progress) :=
  d.throughName fun node mark p =>
    located path mark (match node with
      | .scalar tag text style =>
        match if isValueScalar "bool" tag style then bool? text else none with
        | some value => .ok (value, next p)
        | none => .error (wrongNode node "a boolean")
      | node => .error (wrongNode node "a boolean"))

def isNone : Node → Except Error Bool
  | .scalar tag text .plain =>
    if tag = some (.standard "null") then
      if isNull text then .ok true
      else .error (mismatch (.wrongValue (.string (String.ofList text)) "null"))
    else .ok (tag.isNone && (text.isEmpty || isNull text))
  | .void => .ok true
  | _ => .ok false

/-- Null and nothing at all are none. -/
def readOptional (d : Document) (read : Progress → Except Error (α × Progress)) :
    Progress → Except Error (Option α × Progress) :=
  d.throughName fun node _ p => do
    if ← isNone node then .ok (none, next p)
    else
      let (value, p) ← read p
      .ok (some value, p)

def readUnit (path : Path) (node : Node) (mark : Mark) (p : Progress) : Except Error Progress :=
  located path mark (match node with
    | .scalar _ text style =>
      if style = .plain ∧ (text = [] ∨ isNull text) then .ok (next p)
      else .error (mismatch (.wrongType (.string (String.ofList text)) "unit"))
    | node => .error (wrongNode node "unit"))

/-- One of the known names: the text of a scalar, or the tag of a node that holds nothing. -/
def readVariant (d : Document) (known : List (String × α)) (path : Path) :
    Progress → Except Error (α × Progress) :=
  d.throughName fun node mark p =>
    let tagged (tag : Option Tag) (untagged : Except Error (α × Progress)) :
        Except Error (α × Progress) :=
      match tag.bind Tag.localName? with
      | some name => do
        let value ← find name
        let p ← readUnit path node mark p
        .ok (value, p)
      | none => located path mark untagged
    match node with
    | .scalar tag text _ => tagged tag do
      let value ← find (String.ofList text)
      .ok (value, next p)
    | .sequenceStart tag => tagged tag (.error (mismatch (.wrongType .sequence tagWanted)))
    | .mappingStart tag => tagged tag (.error (mismatch (.wrongType .map tagWanted)))
    | .aliasOf _ | .sequenceEnd | .mappingEnd | .void => .error .endOfStream
where
  tagWanted : String := "a YAML tag starting with '!'"
  find (name : String) : Except Error α :=
    match known.lookup name with
    | some value => .ok value
    | none => .error (mismatch (.unknownVariant name (known.map Prod.fst)))

/-- Steps over a node and what stands in it; names are not followed. -/
def skipNode (d : Document) : (fuel depth : Nat) → Progress → Except Error Progress
  | 0, _, _ => .error .endOfStream
  | fuel + 1, depth, p => do
    let (node, _) ← d.peek p
    let depth := match node with
      | .sequenceStart _ | .mappingStart _ => depth + 1
      | .sequenceEnd | .mappingEnd => depth - 1
      | .aliasOf _ | .scalar _ _ _ | .void => depth
    if depth = 0 then .ok (next p) else skipNode d fuel depth (next p)

/-- The entries of a mapping up to its end; a field that is not known may hold anything. -/
def readFields (d : Document) (fields : List (Field σ)) (path : Path) : (fuel : Nat) → σ →
    Progress → Except Error (σ × Progress)
  | 0, _, _ => .error .endOfStream
  | fuel + 1, s, p => do
    match ← d.peek p with
    | (.mappingEnd, _) | (.void, _) => .ok (s, next p)
    | (node, _) =>
      let segment := match node with
        | .scalar _ text _ => .member (String.ofList text)
        | _ => .unnamed
      let (name, p) ← d.readText "field identifier" path p
      match fields.find? (·.name = name) with
      | none =>
        let p ← d.skipNode (d.nodes.size + 1) 0 p
        readFields d fields path fuel s p
      | some field =>
        if field.isSet s then .error (mismatch (.duplicateField name))
        else
          let (s, p) ← field.read d (segment :: path) s p
          readFields d fields path fuel s p

/-- A structure from a mapping; nothing at all is a structure without fields. -/
def readStructure (d : Document) (expected : String) (fields : List (Field σ)) (path : Path)
    (start : σ) : Progress → Except Error (σ × Progress) :=
  d.throughName fun node mark p =>
    located path mark (match node with
      | .mappingStart _ => readFields d fields path (d.nodes.size + 1) start (next p)
      | .scalar _ [] .plain | .void => .ok (start, next p)
      | node => .error (wrongNode node expected))

end Document
end ApiPresence.Yaml

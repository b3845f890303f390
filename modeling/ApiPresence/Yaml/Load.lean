import ApiPresence.Yaml.Content

namespace ApiPresence.Yaml

/-- How far a document is read: a position in it, and how many names have been followed. -/
structure Progress where
  position : Nat
  jumps : Nat
  deriving DecidableEq, Repr

namespace Document

/-- The node at a position; past the last one, why there is none. -/
def peek (d : Document) (p : Progress) : Except Error (Node × Mark) :=
  match d.nodes[p.position]? with
  | some node => .ok node
  | none => .error (d.fault.getD .endOfStream)

def next (p : Progress) : Progress := { p with position := p.position + 1 }

/-- How often names may be followed, for each node of a document. -/
def jumpLimit : Nat := 100

def jump (d : Document) (number : Nat) (p : Progress) : Except Error Progress :=
  let jumps := p.jumps + 1
  if d.nodes.size * jumpLimit < jumps then .error .repetitionLimit
  else .ok ⟨(d.anchors.lookup number).getD d.nodes.size, jumps⟩

/-- The state behind a name, after what it stands for has been read. -/
def returnTo (p inner : Progress) : Progress := ⟨p.position + 1, inner.jumps⟩

/-- How deep collections may stand in each other. -/
def depthLimit : Nat := 128

/-- More steps than any reading of a document takes. -/
def stepBound (d : Document) : Nat :=
  (d.nodes.size * jumpLimit + 2) * (d.nodes.size + 2) * 4

def located (path : Path) (mark : Mark) (result : Except Error α) : Except Error α :=
  result.mapError (Error.located path mark)

mutual

/-- The value at a position, `depth` levels being left for nesting. -/
def readValue (d : Document) : (fuel : Nat) → Path → (depth : Nat) → (tagDone : Bool) → Progress →
    Except Error (Value × Progress)
  | 0, _, _, _, _ => .error .repetitionLimit
  | fuel + 1, path, depth, tagDone, p => do
    let (node, mark) ← d.peek p
    let tagged (tag : Option Tag) (read : Unit → Except Error (Value × Progress)) :
        Except Error (Value × Progress) :=
      match if tagDone then none else tag.bind Tag.localName? with
      | some name => do
        let (value, p) ← readValue d fuel path depth true p
        .ok (.tagged (Tag.withoutBang name) value, p)
      | none => read ()
    located path mark (match node with
      | .aliasOf number => do
        let inner ← d.jump number p
        let (value, inner) ← readValue d fuel path depth false inner
        .ok (value, returnTo p inner)
      | .scalar tag text style => tagged tag fun _ =>
        match Content.ofScalar tag tagDone text style with
        | .error m => .error (mismatch m)
        | .ok .null => .ok (.null, next p)
        | .ok (.bool value) => .ok (.bool value, next p)
        | .ok (.number value) => .ok (.number value, next p)
        | .ok (.string value) => .ok (.string (String.ofList value), next p)
        | .ok (.wide value) =>
          .error (mismatch (.wrongType (Content.wide value).found "any YAML value"))
      | .sequenceStart tag => tagged tag fun _ =>
        match depth with
        | 0 => .error (.recursionLimit mark)
        | depth + 1 => do
          let (items, p) ← readItems d fuel path depth 0 (next p)
          .ok (.sequence items, p)
      | .mappingStart tag => tagged tag fun _ =>
        match depth with
        | 0 => .error (.recursionLimit mark)
        | depth + 1 => do
          let (entries, p) ← readEntries d fuel path depth [] (next p)
          .ok (.mapping entries, p)
      | .void => .ok (.null, next p)
      | .sequenceEnd | .mappingEnd => .error .endOfStream)

def readItems (d : Document) : (fuel : Nat) → Path → (depth : Nat) → (index : Nat) → Progress →
    Except Error (List Value × Progress)
  | 0, _, _, _, _ => .error .repetitionLimit
  | fuel + 1, path, depth, index, p => do
    match ← d.peek p with
    | (.sequenceEnd, _) | (.void, _) => .ok ([], next p)
    | _ =>
      let (item, p) ← readValue d fuel (.item index :: path) depth false p
      let (items, p) ← readItems d fuel path depth (index + 1) p
      .ok (item :: items, p)

/-- The entries of a mapping behind some, none of which has a key twice, and its end. -/
def readEntries (d : Document) : (fuel : Nat) → Path → (depth : Nat) → List (Value × Value) →
    Progress → Except Error (List (Value × Value) × Progress)
  | 0, _, _, _, _ => .error .repetitionLimit
  | fuel + 1, path, depth, before, p => do
    match ← d.peek p with
    | (.mappingEnd, _) | (.void, _) => .ok ([], next p)
    | (node, _) =>
      let segment := match node with
        | .scalar _ text _ => .member (String.ofList text)
        | _ => .unnamed
      let (key, p) ← readValue d fuel path depth false p
      match Value.findEntry key before with
      | some (known, _) => .error (.node (.duplicateKey known) none)
      | none =>
        let (value, p) ← readValue d fuel (segment :: path) depth false p
        let (entries, p) ← readEntries d fuel path depth (before ++ [(key, value)]) p
        .ok ((key, value) :: entries, p)

end

/-- What a reader makes of a document that holds nothing else and is the only one. -/
def readAll (d : Document) (read : Progress → Except Error (α × Progress)) : Except Error α := do
  let (value, _) ← read ⟨0, 0⟩
  match d.fault with
  | some fault => .error fault
  | none => if d.continued then .error .severalDocuments else .ok value

def toValue (d : Document) : Except Error Value :=
  d.readAll (d.readValue d.stepBound [] depthLimit false)

end Document

def load (text : String) : Except Error Value := (Document.ofText text).toValue

def loadMerged (text : String) : Except Error Value := do
  let value ← load text
  value.resolve.mapError .merge

end ApiPresence.Yaml

import ApiPresence.Yaml.Error
import ApiPresence.Yaml.Event.Grammar

namespace ApiPresence.Yaml

/-- An event of a document; a name is a number that stands for a position. -/
inductive Node where
  | aliasOf (number : Nat)
  | scalar (tag : Option Tag) (text : List Char) (style : ScalarStyle)
  | sequenceStart (tag : Option Tag)
  | sequenceEnd
  | mappingStart (tag : Option Tag)
  | mappingEnd
  /-- The one node of a text without documents. -/
  | void
  deriving DecidableEq, Repr, Inhabited

/-- The first document of a text, as far as it can be read. -/
structure Document where
  nodes : Array (Node × Mark)
  /-- The positions of the numbers in use, the latest of a number first. -/
  anchors : List (Nat × Nat)
  fault : Option Error
  /-- Whether anything but the end follows. -/
  continued : Bool

namespace Document

structure Draft where
  nodes : Array (Node × Mark)
  names : List (List Char × Nat)
  anchors : List (Nat × Nat)

namespace Draft

def push (d : Draft) (node : Node) (mark : Mark) : Draft :=
  { d with nodes := d.nodes.push (node, mark) }

/--
Gives a name the number of names in use, so a name that is given again does not count twice, and its
number may come to stand for a later position.
-/
def name (d : Draft) (name : Option (List Char)) : Draft :=
  match name with
  | none => d
  | some name =>
    let number := d.names.length
    { d with
      names := (name, number) :: d.names.filter (·.1 ≠ name)
      anchors := (number, d.nodes.size) :: d.anchors }

def close (d : Draft) (fault : Option Error) (continued : Bool) : Document :=
  ⟨d.nodes, d.anchors, fault, continued⟩

def read (fault : Option SyntaxError) (d : Draft) : List Event → Document
  | [] => d.close (some (fault.elim .endOfStream .malformed)) false
  | ⟨kind, mark⟩ :: rest =>
    match kind with
    | .documentStart => read fault d rest
    | .documentEnd =>
      match rest with
      | ⟨.streamEnd, _⟩ :: _ => d.close none false
      | _ => d.close none true
    | .streamEnd => (d.push .void mark).close none false
    | .aliasOf name =>
      match d.names.lookup name with
      | some number => read fault (d.push (.aliasOf number) mark) rest
      | none => d.close (some (.unknownAnchor mark)) false
    | .scalar p text style =>
      read fault ((d.name p.anchor).push (.scalar p.tag text style) mark) rest
    | .sequenceStart p => read fault ((d.name p.anchor).push (.sequenceStart p.tag) mark) rest
    | .sequenceEnd => read fault (d.push .sequenceEnd mark) rest
    | .mappingStart p => read fault ((d.name p.anchor).push (.mappingStart p.tag) mark) rest
    | .mappingEnd => read fault (d.push .mappingEnd mark) rest

end Draft

def ofText (text : String) : Document :=
  let stream := EventStream.ofText text.toList
  Draft.read stream.fault ⟨#[], [], []⟩ stream.events

end Document
end ApiPresence.Yaml

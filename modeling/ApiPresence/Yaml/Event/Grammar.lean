import ApiPresence.Yaml.Event
import ApiPresence.Yaml.Token.Stream

namespace ApiPresence.Yaml

/-- What the grammar has next; a collection is named with the mark where it starts. -/
inductive Goal where
  | document (first : Bool)
  | documentContent
  | blockNode
  | documentEnd
  | blockItem (start : Mark)
  | indentlessItem
  | blockKey (start : Mark)
  | blockValue (start : Mark)
  | flowItem (first : Bool) (start : Mark)
  | flowPairKey (start : Mark)
  | flowPairValue (start : Mark)
  | flowPairEnd (start : Mark)
  | flowKey (first : Bool) (start : Mark)
  | flowValue (start : Mark)
  | flowEmptyValue (start : Mark)
  deriving DecidableEq, Repr, Inhabited

/-- The tokens that are left, the goals behind the one at hand, and the meanings of tag handles. -/
structure Grammar where
  tokens : List Token
  goals : List Goal
  handles : List (List Char × Tag)
  deriving Inhabited

namespace Grammar

/-- An event and the state behind it, or a fault; none when the tokens do not suffice. -/
abbrev Outcome := Option (Except SyntaxError (Event × Grammar))

def emit (g : Grammar) (kind : EventKind) (mark : Mark) : Outcome := some (.ok (⟨kind, mark⟩, g))

def emitEmpty (g : Grammar) (mark : Mark) : Outcome := some (.ok (.emptyScalar mark, g))

def fail (problem : Problem) (mark : Mark) (context : Option (Activity × Mark)) : Outcome :=
  some (.error (.malformed problem mark context))

def withGoal (g : Grammar) (goal : Goal) : Grammar := { g with goals := goal :: g.goals }

def withTokens (g : Grammar) (tokens : List Token) : Grammar := { g with tokens }

structure NodeHead where
  anchor : Option (List Char)
  /-- A tag and where it stands. -/
  tag : Option (TagName × Mark)
  /-- Where the first of them stands. -/
  start : Option Mark
  rest : List Token

def anchorFirst (name : List Char) (start : Mark) : List Token → NodeHead
  | ⟨.tag tag, mark, _⟩ :: rest => ⟨some name, some (tag, mark), some start, rest⟩
  | rest => ⟨some name, none, some start, rest⟩

def tagFirst (tag : TagName) (start : Mark) : List Token → NodeHead
  | ⟨.anchor name, _, _⟩ :: rest => ⟨some name, some (tag, start), some start, rest⟩
  | rest => ⟨none, some (tag, start), some start, rest⟩

def nodeHead (tokens : List Token) : NodeHead :=
  match tokens with
  | ⟨.anchor name, start, _⟩ :: rest => anchorFirst name start rest
  | ⟨.tag tag, start, _⟩ :: rest => tagFirst tag start rest
  | rest => ⟨none, none, none, rest⟩

def resolveTag (g : Grammar) (name : TagName) : Option Tag :=
  if name.handle = [] then some name.suffix
  else (g.handles.lookup name.handle).map (· ++ name.suffix)

def nodeBody (g : Grammar) (block indentless : Bool) (properties : Properties) (start : Option Mark)
    (tokens : List Token) : Outcome :=
  match tokens with
  | [] => none
  | token :: rest =>
    let mark := start.getD token.start
    let g := g.withTokens rest
    match token.kind with
    | .scalar text style => g.emit (.scalar properties text style) mark
    | .flowSequenceStart =>
      (g.withGoal (.flowItem true token.start)).emit (.sequenceStart properties) mark
    | .flowMappingStart =>
      (g.withGoal (.flowKey true token.start)).emit (.mappingStart properties) mark
    | kind =>
      if indentless ∧ kind = .blockEntry then
        ((g.withTokens (token :: rest)).withGoal .indentlessItem).emit (.sequenceStart properties)
          mark
      else if block ∧ kind = .blockSequenceStart then
        (g.withGoal (.blockItem token.start)).emit (.sequenceStart properties) mark
      else if block ∧ kind = .blockMappingStart then
        (g.withGoal (.blockKey token.start)).emit (.mappingStart properties) mark
      else if start.isSome then
        (g.withTokens (token :: rest)).emit (.scalar properties [] .plain) mark
      else
        fail .expectedNodeContent token.start
          (some (if block then .blockNode else .flowNode, mark))

/-- The node in front of the tokens; in a block mapping a sequence need not be indented. -/
def node (g : Grammar) (block indentless : Bool) : Outcome :=
  match g.tokens with
  | ⟨.aliasOf name, start, _⟩ :: rest => (g.withTokens rest).emit (.aliasOf name) start
  | tokens =>
    let head := nodeHead tokens
    if head.start.isSome && head.rest.isEmpty then none
    else
      match head.tag with
      | none => g.nodeBody block indentless ⟨head.anchor, none⟩ head.start head.rest
      | some (name, tagMark) =>
        match g.resolveTag name with
        | some tag => g.nodeBody block indentless ⟨head.anchor, some tag⟩ head.start head.rest
        | none =>
          fail .undefinedTagHandle tagMark (some (.node, head.start.getD tagMark))

def nodeUnless (g : Grammar) (stops : List TokenKind) (empty : Mark) (goal : Goal)
    (block indentless : Bool) : Outcome :=
  match g.tokens with
  | [] => none
  | token :: _ =>
    if token.kind ∈ stops then (g.withGoal goal).emitEmpty empty
    else (g.withGoal goal).node block indentless

def standardHandles : List (List Char × Tag) :=
  [(['!'], .ofChars ['!']), (['!', '!'], .ofChars Tag.standardStem)]

/--
The directives in front of a document: at most one version, and at most one meaning for a handle.
-/
def readDirectives (version : Bool) (handles : List (List Char × Tag)) : List Token →
    Except SyntaxError (List (List Char × Tag) × List Token)
  | ⟨.directive (.version major minor), start, _⟩ :: rest =>
    if version then .error (.malformed .duplicateVersionDirective start none)
    else if major ≠ 1 ∨ (minor ≠ 1 ∧ minor ≠ 2) then
      .error (.malformed .incompatibleVersion start none)
    else readDirectives true handles rest
  | ⟨.directive (.tag handle stem), start, _⟩ :: rest =>
    if (handles.lookup handle).isSome then .error (.malformed .duplicateTagDirective start none)
    else readDirectives version (handles ++ [(handle, stem)]) rest
  | rest => .ok (handles, rest)

def document (g : Grammar) (first : Bool) : Outcome :=
  let tokens := if first then g.tokens else g.tokens.dropWhile (·.kind = .documentEnd)
  match tokens with
  | [] => none
  | ⟨.streamEnd, start, _⟩ :: _ => { g with tokens := [], goals := [] }.emit .streamEnd start
  | token :: rest =>
    let isExplicit := match token.kind with
      | .directive _ | .documentStart => true
      | _ => false
    if first && !isExplicit then
      { g with
        tokens := token :: rest, handles := standardHandles,
        goals := .blockNode :: .documentEnd :: g.goals }.emit .documentStart token.start
    else
      match readDirectives false [] (token :: rest) with
      | .error fault => some (.error fault)
      | .ok (_, []) => none
      | .ok (handles, ⟨.documentStart, _, _⟩ :: rest) =>
        { g with
          tokens := rest, handles := handles ++ standardHandles,
          goals := .documentContent :: .documentEnd :: g.goals }.emit .documentStart token.start
      | .ok (_, other :: _) => fail .expectedDocumentStart other.start none

def isDocumentBoundary : TokenKind → Bool
  | .directive _ | .documentStart | .documentEnd | .streamEnd => true
  | _ => false

/-- An item of a flow sequence behind its comma; a key makes it a mapping of one entry. -/
def flowItemBody (g : Grammar) (start : Mark) : Outcome :=
  match g.tokens with
  | [] => none
  | ⟨.flowSequenceEnd, mark, _⟩ :: rest => (g.withTokens rest).emit .sequenceEnd mark
  | ⟨.key, mark, _⟩ :: rest =>
    ((g.withTokens rest).withGoal (.flowPairKey start)).emit (.mappingStart .empty) mark
  | _ => (g.withGoal (.flowItem false start)).node false false

def flowKeyBody (g : Grammar) (start : Mark) : Outcome :=
  match g.tokens with
  | [] => none
  | ⟨.flowMappingEnd, mark, _⟩ :: rest => (g.withTokens rest).emit .mappingEnd mark
  | ⟨.key, _, _⟩ :: rest =>
    match rest with
    | [] => none
    | next :: _ =>
      (g.withTokens rest).nodeUnless [.value, .flowEntry, .flowMappingEnd] next.start
        (.flowValue start) false false
  | _ => (g.withGoal (.flowEmptyValue start)).node false false

def step (g : Grammar) : Goal → Outcome
  | .document first => g.document first
  | .documentContent =>
    match g.tokens with
    | [] => none
    | token :: _ =>
      if isDocumentBoundary token.kind then g.emitEmpty token.start else g.node true false
  | .blockNode => g.node true false
  | .documentEnd =>
    match g.tokens with
    | [] => none
    | ⟨.documentEnd, start, _⟩ :: rest =>
      ((g.withTokens rest).withGoal (.document false)).emit .documentEnd start
    | token :: _ => (g.withGoal (.document false)).emit .documentEnd token.start
  | .blockItem start =>
    match g.tokens with
    | [] => none
    | ⟨.blockEntry, _, stop⟩ :: rest =>
      (g.withTokens rest).nodeUnless [.blockEntry, .blockEnd] stop (.blockItem start) true false
    | ⟨.blockEnd, mark, _⟩ :: rest => (g.withTokens rest).emit .sequenceEnd mark
    | token :: _ => fail .expectedBlockEntry token.start (some (.blockSequence, start))
  | .indentlessItem =>
    match g.tokens with
    | [] => none
    | ⟨.blockEntry, _, stop⟩ :: rest =>
      (g.withTokens rest).nodeUnless [.blockEntry, .key, .value, .blockEnd] stop .indentlessItem
        true false
    | token :: _ => g.emit .sequenceEnd token.start
  | .blockKey start =>
    match g.tokens with
    | [] => none
    | ⟨.key, _, stop⟩ :: rest =>
      (g.withTokens rest).nodeUnless [.key, .value, .blockEnd] stop (.blockValue start) true true
    | ⟨.blockEnd, mark, _⟩ :: rest => (g.withTokens rest).emit .mappingEnd mark
    | token :: _ => fail .expectedKey token.start (some (.blockMapping, start))
  | .blockValue start =>
    match g.tokens with
    | [] => none
    | ⟨.value, _, stop⟩ :: rest =>
      (g.withTokens rest).nodeUnless [.key, .value, .blockEnd] stop (.blockKey start) true true
    | token :: _ => (g.withGoal (.blockKey start)).emitEmpty token.start
  | .flowItem first start =>
    match g.tokens with
    | [] => none
    | ⟨.flowSequenceEnd, mark, _⟩ :: rest => (g.withTokens rest).emit .sequenceEnd mark
    | token :: rest =>
      if first then g.flowItemBody start
      else if token.kind = .flowEntry then (g.withTokens rest).flowItemBody start
      else fail .expectedCommaOrBracket token.start (some (.flowSequence, start))
  | .flowPairKey start =>
    match g.tokens with
    | [] => none
    | token :: rest =>
      if token.kind ∈ [.value, .flowEntry, .flowSequenceEnd] then
        ((g.withTokens rest).withGoal (.flowPairValue start)).emitEmpty token.stop
      else (g.withGoal (.flowPairValue start)).node false false
  | .flowPairValue start =>
    match g.tokens with
    | [] => none
    | ⟨.value, _, _⟩ :: rest =>
      match rest with
      | [] => none
      | next :: _ =>
        (g.withTokens rest).nodeUnless [.flowEntry, .flowSequenceEnd] next.start
          (.flowPairEnd start) false false
    | token :: _ => (g.withGoal (.flowPairEnd start)).emitEmpty token.start
  | .flowPairEnd start =>
    match g.tokens with
    | [] => none
    | token :: _ => (g.withGoal (.flowItem false start)).emit .mappingEnd token.start
  | .flowKey first start =>
    match g.tokens with
    | [] => none
    | ⟨.flowMappingEnd, mark, _⟩ :: rest => (g.withTokens rest).emit .mappingEnd mark
    | token :: rest =>
      if first then g.flowKeyBody start
      else if token.kind = .flowEntry then (g.withTokens rest).flowKeyBody start
      else fail .expectedCommaOrBrace token.start (some (.flowMapping, start))
  | .flowValue start =>
    match g.tokens with
    | [] => none
    | ⟨.value, _, _⟩ :: rest =>
      match rest with
      | [] => none
      | next :: _ =>
        (g.withTokens rest).nodeUnless [.flowEntry, .flowMappingEnd] next.start
          (.flowKey false start) false false
    | token :: _ => (g.withGoal (.flowKey false start)).emitEmpty token.start
  | .flowEmptyValue start =>
    match g.tokens with
    | [] => none
    | token :: _ => (g.withGoal (.flowKey false start)).emitEmpty token.start

/-- The events from a state on; where the tokens do not suffice, their fault ends the events. -/
def run (fault : Option SyntaxError) : (fuel : Nat) → Grammar → EventStream
  | 0, _ => ⟨[], fault⟩
  | fuel + 1, g =>
    match g.goals with
    | [] => ⟨[], none⟩
    | goal :: goals =>
      match { g with goals }.step goal with
      | none => ⟨[], fault⟩
      | some (.error fault) => ⟨[], some fault⟩
      | some (.ok (event, g)) =>
        let stream := run fault fuel g
        { stream with events := event :: stream.events }

end Grammar

namespace EventStream

def ofTokens (s : TokenStream) : EventStream :=
  Grammar.run s.fault (4 * s.tokens.length + 16) ⟨s.tokens, [.document true], []⟩

def ofText (text : List Char) : EventStream := ofTokens (.ofText text)

end EventStream
end ApiPresence.Yaml

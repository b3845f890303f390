import ApiPresence.Proofs.Yaml.Printer
import ApiPresence.Yaml.Document

namespace ApiPresence.Yaml

open Document (Draft)

mutual

/-- The nodes of a tree. -/
def treeNodes : Tree → List Node
  | .array items => .sequenceStart none :: (itemNodes items ++ [.sequenceEnd])
  | .object members => .mappingStart none :: (memberNodes members ++ [.mappingEnd])
  | scalar => [.scalar none (scalarText scalar) (scalarStyle scalar)]

def itemNodes : List Tree → List Node
  | [] => []
  | item :: rest => treeNodes item ++ itemNodes rest

def memberNodes : List (String × Tree) → List Node
  | [] => []
  | (key, value) :: rest => .scalar none key.toList .plain :: (treeNodes value ++ memberNodes rest)

end

mutual

/-- A sequence that is not indented has two nodes more than its items, and no token. -/
theorem length_treeNodes_le (indentless : Bool) : (t : Tree) →
    (treeNodes t).length ≤ 2 * (nodeTokens indentless t).length + if indentless then 2 else 0
  | .array items => by
    have hi := length_itemNodes_le items
    cases indentless <;> simp [treeNodes, nodeTokens] <;> omega
  | .object members => by
    have hm := length_memberNodes_le members
    simp [treeNodes, nodeTokens]
    omega
  | .null | .bool _ | .number _ | .string _ => by
    simp [treeNodes, nodeTokens]
    omega

theorem length_itemNodes_le : (items : List Tree) →
    (itemNodes items).length ≤ 2 * (itemTokens items).length
  | [] => Nat.zero_le _
  | item :: rest => by
    have hi := length_treeNodes_le false item
    have hr := length_itemNodes_le rest
    simp [itemNodes, itemTokens] at hi ⊢
    omega

theorem length_memberNodes_le : (members : List (String × Tree)) →
    (memberNodes members).length ≤ 2 * (memberTokens members).length
  | [] => Nat.zero_le _
  | (key, value) :: rest => by
    have hv := length_treeNodes_le true value
    have hr := length_memberNodes_le rest
    simp [memberNodes, memberTokens] at hv ⊢
    omega

end

theorem Leaf.nodes_eq (h : Leaf t) :
    treeNodes t = [.scalar none (scalarText t) (scalarStyle t)] := by
  cases h <;> rfl

namespace Document.Draft

/-- Nodes come behind those of a draft, wherever they stand in the text. -/
structure Grows (d : Draft) (nodes : List Node) (d' : Draft) : Prop where
  nodes : d'.nodes.toList.map Prod.fst = d.nodes.toList.map Prod.fst ++ nodes
  names : d'.names = d.names
  anchors : d'.anchors = d.anchors

theorem Grows.refl (d : Draft) : d.Grows [] d := ⟨(List.append_nil _).symm, rfl, rfl⟩

theorem grows_push (d : Draft) (node : Node) (mark : Mark) : d.Grows [node] (d.push node mark) :=
  ⟨by simp [push], rfl, rfl⟩

theorem Grows.trans {d d' d'' : Draft} (h : d.Grows a d') (h' : d'.Grows b d'') :
    d.Grows (a ++ b) d'' :=
  ⟨by rw [h'.nodes, h.nodes, List.append_assoc], h'.names.trans h.names,
    h'.anchors.trans h.anchors⟩

/-- The document of the tokens that a state of the grammar has left. -/
def build (fuel : Nat) (g : Grammar) (d : Draft) : Document :=
  d.read (g.run none fuel).fault (g.run none fuel).events

end Document.Draft

namespace Grammar

variable {g : Grammar} {goal : Goal} {goals goals' : List Goal}
  {tokens front mine rest : List Token}
  {handles : List (List Char × Tag)} {fuel : Nat} {d d' : Draft} {start mark : Mark}

/-- Steps from a state to another, and the nodes that they add to a draft. -/
def Adds (g : Grammar) (nodes : List Node) (g' : Grammar) : Prop :=
  ∀ fuel d, ∃ d', Draft.Grows d nodes d' ∧
    d.build (nodes.length + fuel) g = Draft.build fuel g' d'

theorem Adds.refl (g : Grammar) : g.Adds [] g :=
  fun fuel d => ⟨d, .refl d, by rw [List.length_nil, Nat.zero_add]⟩

theorem Adds.trans {g' g'' : Grammar} (h : g.Adds a g') (h' : g'.Adds b g'') :
    g.Adds (a ++ b) g'' := by
  intro fuel d
  obtain ⟨e, hg, he⟩ := h (b.length + fuel) d
  obtain ⟨f, hg', hf⟩ := h' fuel e
  refine ⟨f, hg.trans hg', ?_⟩
  rw [List.length_append, Nat.add_assoc, he, hf]

theorem run_step {g' : Grammar} {event : Event}
    (hs : ({ tokens, goals, handles } : Grammar).step goal = some (.ok (event, g')))
    (fuel : Nat) : ({ tokens, goals := goal :: goals, handles } : Grammar).run none (fuel + 1) =
      { g'.run none fuel with events := event :: (g'.run none fuel).events } := by
  rw [run]
  simp only [hs]

/-- An event adds the node that it is read as. -/
theorem adds_step {g' : Grammar} {event : Event} {node : Node}
    (hs : ({ tokens, goals, handles } : Grammar).step goal = some (.ok (event, g')))
    (hn : ∀ d fault rest, Draft.read fault d (event :: rest) =
      Draft.read fault (d.push node event.mark) rest) :
    ({ tokens, goals := goal :: goals, handles } : Grammar).Adds [node] g' := by
  intro fuel d
  refine ⟨_, d.grows_push node event.mark, ?_⟩
  rw [List.length_singleton, Nat.add_comm, Draft.build, run_step hs, hn]
  rfl

theorem node_sequence (tokens : List Token) (goals : List Goal) (start stop : Mark)
    (indentless : Bool) :
    node ⟨⟨.blockSequenceStart, start, stop⟩ :: tokens, goals, handles⟩ true indentless =
      emit ⟨tokens, .blockItem start :: goals, handles⟩ (.sequenceStart .empty) start := by
  simp [node, nodeHead, nodeBody, withGoal, withTokens, emit, Properties.empty]

theorem node_mapping (tokens : List Token) (goals : List Goal) (start stop : Mark)
    (indentless : Bool) :
    node ⟨⟨.blockMappingStart, start, stop⟩ :: tokens, goals, handles⟩ true indentless =
      emit ⟨tokens, .blockKey start :: goals, handles⟩ (.mappingStart .empty) start := by
  simp [node, nodeHead, nodeBody, withGoal, withTokens, emit, Properties.empty]

theorem node_indentless (tokens : List Token) (goals : List Goal) (start stop : Mark) :
    node ⟨⟨.blockEntry, start, stop⟩ :: tokens, goals, handles⟩ true true =
      emit ⟨⟨.blockEntry, start, stop⟩ :: tokens, .indentlessItem :: goals, handles⟩
        (.sequenceStart .empty) start := by
  simp [node, nodeHead, nodeBody, withGoal, withTokens, emit, Properties.empty]

/-- A token that does not go on with the items of a sequence that is not indented. -/
def EndsItems (rest : List Token) : Prop := ∃ token ∈ rest.head?, token.kind ≠ .blockEntry

/-- Where the next node is that of some tokens, some nodes are added. -/
def Parses (block indentless : Bool) (kinds : List TokenKind) (nodes : List Node) : Prop :=
  ∀ goal goals goals' front mine rest handles,
    mine.map (·.kind) = kinds → (indentless = true → EndsItems rest) →
    step ⟨front, goals, handles⟩ goal = node ⟨mine ++ rest, goals', handles⟩ block indentless →
    Adds ⟨front, goal :: goals, handles⟩ nodes ⟨rest, goals', handles⟩

/-- The tokens of a tree add its nodes, also where a sequence need not be indented. -/
def ParsesTree (t : Tree) : Prop :=
  ∀ indentless, Parses true indentless (nodeTokens indentless t) (treeNodes t)

theorem exists_token {kind : TokenKind} (h : mine.map (·.kind) = kind :: kinds) :
    ∃ start stop more, mine = ⟨kind, start, stop⟩ :: more ∧ more.map (·.kind) = kinds := by
  obtain ⟨⟨kind, start, stop⟩, more, rfl, rfl, hm⟩ := List.map_eq_cons_iff.mp h
  exact ⟨start, stop, more, rfl, hm⟩

theorem parses_scalar (block indentless : Bool) (text : List Char) (style : ScalarStyle) :
    Parses block indentless [.scalar text style] [.scalar none text style] := by
  intro goal goals goals' front mine rest handles hm _ hs
  obtain ⟨start, stop, mine, rfl, hnil⟩ := exists_token hm
  obtain rfl := List.map_eq_nil_iff.mp hnil
  exact adds_step hs fun _ _ _ => rfl

theorem parses_leaf (h : Leaf t) : ParsesTree t := by
  intro indentless
  rw [h.tokens_eq, h.nodes_eq]
  exact parses_scalar true indentless _ _

def startsNode : TokenKind → Bool
  | .scalar _ _ | .blockSequenceStart | .blockMappingStart | .blockEntry | .flowSequenceStart
  | .flowMappingStart => true
  | _ => false

theorem nodeTokens_head (indentless : Bool) (h : Printable depth t) :
    ∃ kind ∈ (nodeTokens indentless t).head?, startsNode kind = true ∧
      (indentless = false → kind ≠ .blockEntry) := by
  cases h with
  | leaf h =>
    rw [h.tokens_eq]
    exact ⟨_, rfl, rfl, nofun⟩
  | object => exact ⟨.blockMappingStart, rfl, rfl, nofun⟩
  | @array items _ hn =>
    obtain ⟨item, items, rfl⟩ := List.exists_cons_of_ne_nil hn
    cases indentless with
    | true => exact ⟨.blockEntry, rfl, rfl, nofun⟩
    | false => exact ⟨.blockSequenceStart, rfl, rfl, nofun⟩

/-- What a node starts with is none of the marks in front of nodes. -/
theorem not_mem_of_startsNode {kind : TokenKind} (h : startsNode kind = true) :
    kind ∉ [.key, .value, .blockEnd] := by
  intro hm
  simp only [List.mem_cons, List.not_mem_nil, or_false] at hm
  obtain rfl | rfl | rfl := hm <;> cases h

theorem nodeUnless_node {stops : List TokenKind} {block indentless : Bool} {kind : TokenKind}
    (hk : kind ∈ (mine.map (·.kind)).head?) (hs : kind ∉ stops) (goals : List Goal) (stop : Mark) :
    nodeUnless ⟨mine ++ rest, goals, handles⟩ stops stop goal block indentless =
      node ⟨mine ++ rest, goal :: goals, handles⟩ block indentless := by
  cases mine with
  | nil => cases hk
  | cons token mine =>
    cases hk
    exact if_neg hs

/-- A goal of items behind their marks. -/
def TakesItems (goal : Goal) : Prop :=
  ∃ stops ⊆ [.blockEntry, .key, .value, .blockEnd], ∀ start stop tokens goals handles,
    step ⟨⟨.blockEntry, start, stop⟩ :: tokens, goals, handles⟩ goal =
      nodeUnless ⟨tokens, goals, handles⟩ stops stop goal true false

theorem takesItems_blockItem (start : Mark) : TakesItems (.blockItem start) :=
  ⟨[.blockEntry, .blockEnd], by decide, fun _ _ _ _ _ => rfl⟩

theorem takesItems_indentlessItem : TakesItems .indentlessItem :=
  ⟨[.blockEntry, .key, .value, .blockEnd], by decide, fun _ _ _ _ _ => rfl⟩

theorem adds_items (hg : TakesItems goal) (hp : ∀ item ∈ items, Printable depth item)
    (hi : ∀ item ∈ items, ParsesTree item) (hm : mine.map (·.kind) = itemTokens items)
    (rest : List Token) (goals : List Goal) (handles : List (List Char × Tag)) :
    Adds ⟨mine ++ rest, goal :: goals, handles⟩ (itemNodes items)
      ⟨rest, goal :: goals, handles⟩ := by
  obtain ⟨stops, hstops, hstep⟩ := hg
  induction items generalizing mine with
  | nil =>
    obtain rfl := List.map_eq_nil_iff.mp hm
    exact .refl _
  | cons item items ih =>
    obtain ⟨hp, hps⟩ := List.forall_mem_cons.mp hp
    obtain ⟨hi, his⟩ := List.forall_mem_cons.mp hi
    obtain ⟨start, stop, mine, rfl, hmine⟩ := exists_token hm
    obtain ⟨own, others, rfl, ho, hos⟩ := List.map_eq_append_iff.mp hmine
    obtain ⟨kind, hk, hn, he⟩ := nodeTokens_head false hp
    have hs : kind ∉ stops := fun hmem => by
      rcases List.mem_cons.mp (hstops hmem) with h | h
      · exact he rfl h
      · exact not_mem_of_startsNode hn h
    have hnode := hi false goal goals (goal :: goals)
      (⟨.blockEntry, start, stop⟩ :: (own ++ others ++ rest)) own (others ++ rest) handles ho
      nofun (by
        rw [hstep, List.append_assoc]
        exact nodeUnless_node (ho ▸ hk) hs goals stop)
    exact hnode.trans (ih hps his hos)

theorem endsItems_memberTokens (hr : EndsItems rest)
    (hm : mine.map (·.kind) = memberTokens members) :
    EndsItems (mine ++ rest) := by
  cases members with
  | nil => rwa [List.map_eq_nil_iff.mp hm]
  | cons member members =>
    obtain ⟨start, stop, mine, rfl, -⟩ := exists_token hm
    exact ⟨_, rfl, nofun⟩

theorem adds_members (hp : ∀ member ∈ members, Printable depth member.2)
    (hv : ∀ member ∈ members, ParsesTree member.2) (hm : mine.map (·.kind) = memberTokens members)
    (hr : EndsItems rest) (start : Mark) (goals : List Goal) (handles : List (List Char × Tag)) :
    Adds ⟨mine ++ rest, .blockKey start :: goals, handles⟩ (memberNodes members)
      ⟨rest, .blockKey start :: goals, handles⟩ := by
  induction members generalizing mine with
  | nil =>
    obtain rfl := List.map_eq_nil_iff.mp hm
    exact .refl _
  | cons member members ih =>
    obtain ⟨key, value⟩ := member
    obtain ⟨hp, hps⟩ := List.forall_mem_cons.mp hp
    obtain ⟨hv, hvs⟩ := List.forall_mem_cons.mp hv
    obtain ⟨s₁, e₁, mine, rfl, hkey⟩ := exists_token hm
    obtain ⟨s₂, e₂, mine, rfl, hcolon⟩ := exists_token hkey
    obtain ⟨s₃, e₃, mine, rfl, hrest⟩ := exists_token hcolon
    obtain ⟨own, others, rfl, ho, hos⟩ := List.map_eq_append_iff.mp hrest
    obtain ⟨kind, hk, hn, -⟩ := nodeTokens_head true hp
    have hfirst : Adds ⟨⟨.key, s₁, e₁⟩ :: ⟨.scalar key.toList .plain, s₂, e₂⟩ :: ⟨.value, s₃, e₃⟩ ::
        (own ++ others ++ rest), .blockKey start :: goals, handles⟩
        [.scalar none key.toList .plain]
        ⟨⟨.value, s₃, e₃⟩ :: (own ++ others ++ rest), .blockValue start :: goals, handles⟩ :=
      adds_step rfl fun _ _ _ => rfl
    have hvalue := hv true (.blockValue start) goals (.blockKey start :: goals)
      (⟨.value, s₃, e₃⟩ :: (own ++ others ++ rest)) own (others ++ rest) handles ho
      (fun _ => endsItems_memberTokens hr hos) (by
        rw [List.append_assoc]
        exact nodeUnless_node (ho ▸ hk) (not_mem_of_startsNode hn) goals e₃)
    exact hfirst.trans (hvalue.trans (ih hps hvs hos))

/-- A token that goes on with no items ends a sequence that is not indented. -/
theorem adds_indentlessEnd (hr : EndsItems rest) :
    Adds ⟨rest, .indentlessItem :: goals, handles⟩ [.sequenceEnd] ⟨rest, goals, handles⟩ := by
  obtain ⟨⟨kind, start, stop⟩, ht, hk⟩ := hr
  obtain ⟨more, rfl⟩ := List.head?_eq_some_iff.mp ht
  have hs : step ⟨⟨kind, start, stop⟩ :: more, goals, handles⟩ .indentlessItem =
      emit ⟨⟨kind, start, stop⟩ :: more, goals, handles⟩ .sequenceEnd start := by
    cases kind with
    | blockEntry => exact absurd rfl hk
    | _ => rfl
  exact adds_step hs fun _ _ _ => rfl

theorem parses_array (hn : items ≠ []) (hp : ∀ item ∈ items, Printable depth item)
    (hi : ∀ item ∈ items, ParsesTree item) : ParsesTree (.array items) := by
  intro indentless goal goals goals' front mine rest handles hm hr hs
  cases indentless with
  | true =>
    have hm' : mine.map (·.kind) = itemTokens items := hm
    have hitems := adds_items takesItems_indentlessItem hp hi hm' rest goals' handles
    obtain ⟨item, items, rfl⟩ := List.exists_cons_of_ne_nil hn
    obtain ⟨start, stop, mine, rfl, -⟩ := exists_token hm'
    exact (adds_step (hs.trans (node_indentless ..)) fun _ _ _ => rfl).trans
      (hitems.trans (adds_indentlessEnd (hr rfl)))
  | false =>
    have hm' : mine.map (·.kind) = .blockSequenceStart :: (itemTokens items ++ [.blockEnd]) := hm
    obtain ⟨start, stop, mine, rfl, hmine⟩ := exists_token hm'
    obtain ⟨own, last, rfl, ho, hl⟩ := List.map_eq_append_iff.mp hmine
    obtain ⟨s, e, last, rfl, hnil⟩ := exists_token hl
    obtain rfl := List.map_eq_nil_iff.mp hnil
    have hend : Adds ⟨⟨.blockEnd, s, e⟩ :: rest, .blockItem start :: goals', handles⟩ [.sequenceEnd]
        ⟨rest, goals', handles⟩ := adds_step rfl fun _ _ _ => rfl
    have hitems := adds_items (takesItems_blockItem start) hp hi ho (⟨.blockEnd, s, e⟩ :: rest)
      goals' handles
    rw [List.cons_append, List.append_assoc] at hs
    exact (adds_step (hs.trans (node_sequence ..)) fun _ _ _ => rfl).trans (hitems.trans hend)

theorem parses_object (hp : ∀ member ∈ members, Printable depth member.2)
    (hv : ∀ member ∈ members, ParsesTree member.2) : ParsesTree (.object members) := by
  intro indentless goal goals goals' front mine rest handles hm hr hs
  have hm' : mine.map (·.kind) = .blockMappingStart :: (memberTokens members ++ [.blockEnd]) := hm
  obtain ⟨start, stop, mine, rfl, hmine⟩ := exists_token hm'
  obtain ⟨own, last, rfl, ho, hl⟩ := List.map_eq_append_iff.mp hmine
  obtain ⟨s, e, last, rfl, hnil⟩ := exists_token hl
  obtain rfl := List.map_eq_nil_iff.mp hnil
  have hend : Adds ⟨⟨.blockEnd, s, e⟩ :: rest, .blockKey start :: goals', handles⟩ [.mappingEnd]
      ⟨rest, goals', handles⟩ := adds_step rfl fun _ _ _ => rfl
  have hends : EndsItems (⟨.blockEnd, s, e⟩ :: rest) := ⟨_, rfl, nofun⟩
  have hmembers := adds_members hp hv ho hends start goals' handles
  rw [List.cons_append, List.append_assoc] at hs
  exact (adds_step (hs.trans (node_mapping ..)) fun _ _ _ => rfl).trans (hmembers.trans hend)

theorem parses_of_printable (h : Printable depth t) : ParsesTree t := by
  induction h with
  | leaf h => exact parses_leaf h
  | array hn hp ih => exact parses_array hn hp ih
  | object _ _ _ hp ih => exact parses_object hp ih

theorem step_document {kind : TokenKind} (h : startsNode kind = true) (start stop : Mark)
    (rest : List Token) :
    step ⟨⟨kind, start, stop⟩ :: rest, [], []⟩ (.document true) =
      emit ⟨⟨kind, start, stop⟩ :: rest, [.blockNode, .documentEnd], standardHandles⟩ .documentStart
        start := by
  cases kind with
  | scalar | blockSequenceStart | blockMappingStart | blockEntry | flowSequenceStart
    | flowMappingStart => rfl
  | _ => cases h

end Grammar

/-- The tokens of a node make up a document of its own. -/
theorem read_ofTokens {kinds : List TokenKind} {nodes : List Node} {tokens : List Token}
    (hp : Grammar.Parses true false kinds nodes)
    (hk : ∃ kind ∈ kinds.head?, Grammar.startsNode kind = true)
    (hl : nodes.length ≤ 2 * kinds.length)
    (ht : tokens.map (·.kind) = kinds ++ [.streamEnd]) :
    ∃ d, Draft.Grows ⟨#[], [], []⟩ nodes d ∧
      Draft.read (EventStream.ofTokens ⟨tokens, none⟩).fault ⟨#[], [], []⟩
        (EventStream.ofTokens ⟨tokens, none⟩).events = d.close none false := by
  obtain ⟨own, last, rfl, ho, hlast⟩ := List.map_eq_append_iff.mp ht
  obtain ⟨s, e, last, rfl, hnil⟩ := Grammar.exists_token hlast
  obtain rfl := List.map_eq_nil_iff.mp hnil
  rw [← ho, List.length_map] at hl
  obtain ⟨fuel, hf⟩ : ∃ fuel, 4 * (own.length + 1) + 16 = nodes.length + (fuel + 3) + 1 :=
    ⟨4 * (own.length + 1) + 12 - nodes.length, by omega⟩
  obtain ⟨d, hg, hd⟩ := hp .blockNode [.documentEnd] [.documentEnd]
    (own ++ [⟨.streamEnd, s, e⟩]) own [⟨.streamEnd, s, e⟩] Grammar.standardHandles ho nofun rfl
    (fuel + 3) ⟨#[], [], []⟩
  refine ⟨d, hg, ?_⟩
  have hend : d.build (fuel + 3) ⟨[⟨.streamEnd, s, e⟩], [.documentEnd], Grammar.standardHandles⟩ =
      d.close none false := rfl
  obtain ⟨kind, hkind, hs⟩ := hk
  obtain ⟨more, rfl⟩ := List.head?_eq_some_iff.mp hkind
  obtain ⟨start, stop, more, rfl, -⟩ := Grammar.exists_token ho
  have hstep := Grammar.step_document hs start stop (more ++ [⟨.streamEnd, s, e⟩])
  rw [← hend, ← hd, EventStream.ofTokens, List.length_append, List.length_singleton, hf]
  exact (congrArg (fun stream : EventStream => Draft.read stream.fault ⟨#[], [], []⟩ stream.events)
    (Grammar.run_step hstep _)).trans rfl

/-- Without faults, a text of a node's tokens is one document of its nodes. -/
theorem document_ofText {text : String} {kinds : List TokenKind} {nodes : List Node}
    {tokens : List Token} (hp : Grammar.Parses true false kinds nodes)
    (hk : ∃ kind ∈ kinds.head?, Grammar.startsNode kind = true)
    (hl : nodes.length ≤ 2 * kinds.length)
    (ht : TokenStream.ofText text.toList = ⟨tokens, none⟩)
    (hkinds : tokens.map (·.kind) = kinds ++ [.streamEnd]) :
    (Document.ofText text).nodes.toList.map Prod.fst = nodes ∧
      (Document.ofText text).fault = none ∧ (Document.ofText text).continued = false := by
  obtain ⟨d, hg, hd⟩ := read_ofTokens hp hk hl hkinds
  have ho : Document.ofText text = d.close none false := by
    rw [← hd, ← ht]
    rfl
  rw [ho]
  exact ⟨hg.nodes, rfl, rfl⟩

/-- A text that is written for a tree is one document of the tree's nodes. -/
theorem document_print (h : Printable depth t) (hn : ¬ Leaf t) :
    (Document.ofText (print t)).nodes.toList.map Prod.fst = treeNodes t ∧
      (Document.ofText (print t)).fault = none ∧
      (Document.ofText (print t)).continued = false := by
  obtain ⟨tokens, ht, hk⟩ := ofText_print h hn
  obtain ⟨kind, hkind, hs, -⟩ := Grammar.nodeTokens_head false h
  exact document_ofText (Grammar.parses_of_printable h false) ⟨kind, hkind, hs⟩
    (length_treeNodes_le false t) ht hk

end ApiPresence.Yaml

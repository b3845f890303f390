import ApiPresence.Proofs.Shared.Tokens
import ApiPresence.Proofs.Yaml.RoundTrip

namespace ApiPresence

open Yaml (Content Goal Mark Node Tag Token TokenKind ReadsAs readsAs_scalar)
open Yaml.Grammar (Adds Parses adds_step exists_token startsNode)

variable {s : Source} {value : Tree} {letters : List Char} {depth : Nat} {goal : Goal}
  {goals : List Goal} {front mine rest : List Token} {handles : List (List Char × Tag)}
  {start : Mark} {items : List (Spaced Source)} {members : List (Key × Spaced Source)}

namespace Source

mutual

/-- The nodes of a text. -/
def nodes : Source → List Node
  | .word letters _ => [.scalar none letters .plain]
  | .string _ value => [.scalar none value.toList .doubleQuoted]
  | .emptyArray _ => [.sequenceStart none, .sequenceEnd]
  | .array ⟨_, value, _⟩ rest => .sequenceStart none :: (value.nodes ++ itemNodes rest)
  | .emptyObject _ => [.mappingStart none, .mappingEnd]
  | .object (key, ⟨_, value, _⟩) rest =>
    .mappingStart none :: .scalar none key.name.toList .doubleQuoted ::
      (value.nodes ++ memberNodes rest)

def itemNodes : List (Spaced Source) → List Node
  | [] => [.sequenceEnd]
  | ⟨_, value, _⟩ :: rest => value.nodes ++ itemNodes rest

def memberNodes : List (Key × Spaced Source) → List Node
  | [] => [.mappingEnd]
  | (key, ⟨_, value, _⟩) :: rest =>
    .scalar none key.name.toList .doubleQuoted :: (value.nodes ++ memberNodes rest)

end

theorem tokens_head (s : Source) : ∃ kind ∈ s.tokens.head?, startsNode kind = true := by
  cases s <;> exact ⟨_, rfl, rfl⟩

end Source

namespace Yaml.Grammar

theorem node_flowSequence (block : Bool) (tokens : List Token) (goals : List Goal)
    (start stop : Mark) :
    node ⟨⟨.flowSequenceStart, start, stop⟩ :: tokens, goals, handles⟩ block false =
      emit ⟨tokens, .flowItem true start :: goals, handles⟩ (.sequenceStart .empty) start := by
  simp [node, nodeHead, nodeBody, withGoal, withTokens, emit, Properties.empty]

theorem node_flowMapping (block : Bool) (tokens : List Token) (goals : List Goal)
    (start stop : Mark) :
    node ⟨⟨.flowMappingStart, start, stop⟩ :: tokens, goals, handles⟩ block false =
      emit ⟨tokens, .flowKey true start :: goals, handles⟩ (.mappingStart .empty) start := by
  simp [node, nodeHead, nodeBody, withGoal, withTokens, emit, Properties.empty]

theorem flowItemBody_node {kind : TokenKind} (hk : kind ∈ (mine.map (·.kind)).head?)
    (hs : startsNode kind = true) (goals : List Goal) (start : Mark) :
    flowItemBody ⟨mine ++ rest, goals, handles⟩ start =
      node ⟨mine ++ rest, .flowItem false start :: goals, handles⟩ false false := by
  cases mine with
  | nil => cases hk
  | cons token mine =>
    obtain ⟨kind, _, _⟩ := token
    cases hk
    cases kind <;> first | rfl | cases hs

theorem step_firstItem (tokens : List Token) (goals : List Goal) (start : Mark) :
    step ⟨tokens, goals, handles⟩ (.flowItem true start) =
      flowItemBody ⟨tokens, goals, handles⟩ start := by
  obtain _ | ⟨⟨kind, _, _⟩, tokens⟩ := tokens
  · rfl
  · cases kind <;> rfl

end Yaml.Grammar

namespace Source

/-- The tokens of a text add its nodes, inside brackets and outside. -/
def Parses (s : Source) : Prop := ∀ block, Yaml.Grammar.Parses block false s.tokens s.nodes

/-- An item where its mark has been dealt with. -/
theorem Parses.item (h : s.Parses) (hm : mine.map (·.kind) = s.tokens)
    (hs : Yaml.Grammar.step ⟨front, goals, handles⟩ goal =
      Yaml.Grammar.flowItemBody ⟨mine ++ rest, goals, handles⟩ start) :
    Adds ⟨front, goal :: goals, handles⟩ s.nodes
      ⟨rest, .flowItem false start :: goals, handles⟩ := by
  obtain ⟨kind, hk, hn⟩ := s.tokens_head
  exact h false goal goals _ front mine rest handles hm nofun
    (hs.trans (Yaml.Grammar.flowItemBody_node (hm ▸ hk) hn goals start))

theorem adds_items (hi : ∀ item ∈ items, item.value.Parses)
    (hm : mine.map (·.kind) = itemTokens items) (rest : List Token) (start : Mark)
    (goals : List Goal) (handles : List (List Char × Tag)) :
    Adds ⟨mine ++ rest, .flowItem false start :: goals, handles⟩ (itemNodes items)
      ⟨rest, goals, handles⟩ := by
  induction items generalizing mine with
  | nil =>
    obtain ⟨s, e, more, rfl, hnil⟩ := exists_token hm
    obtain rfl := List.map_eq_nil_iff.mp hnil
    exact adds_step rfl fun _ _ _ => rfl
  | cons item items ih =>
    obtain ⟨gap, value, gap'⟩ := item
    obtain ⟨hi, his⟩ := List.forall_mem_cons.mp hi
    obtain ⟨s, e, more, rfl, hmore⟩ := exists_token hm
    obtain ⟨own, others, rfl, ho, hos⟩ := List.map_eq_append_iff.mp hmore
    have hitem : Adds ⟨⟨.flowEntry, s, e⟩ :: (own ++ (others ++ rest)),
        .flowItem false start :: goals, handles⟩ value.nodes
        ⟨others ++ rest, .flowItem false start :: goals, handles⟩ := hi.item ho rfl
    rw [List.cons_append, List.append_assoc]
    exact hitem.trans (ih his hos)

/-- A member where its mark has been dealt with. -/
theorem Parses.member (h : s.Parses) {s₁ e₁ s₂ e₂ s₃ e₃ : Mark} (name : String)
    (hm : mine.map (·.kind) = s.tokens)
    (hs : Yaml.Grammar.step ⟨front, goals, handles⟩ goal =
      Yaml.Grammar.flowKeyBody ⟨⟨.key, s₁, e₁⟩ :: ⟨.scalar name.toList .doubleQuoted, s₂, e₂⟩ ::
        ⟨.value, s₃, e₃⟩ :: (mine ++ rest), goals, handles⟩ start) :
    Adds ⟨front, goal :: goals, handles⟩
      (.scalar none name.toList .doubleQuoted :: s.nodes)
      ⟨rest, .flowKey false start :: goals, handles⟩ := by
  obtain ⟨kind, hk, hn⟩ := s.tokens_head
  have hkey : Adds ⟨front, goal :: goals, handles⟩ [.scalar none name.toList .doubleQuoted]
      ⟨⟨.value, s₃, e₃⟩ :: (mine ++ rest), .flowValue start :: goals, handles⟩ :=
    adds_step hs fun _ _ _ => rfl
  refine hkey.trans (h false _ goals _ _ mine rest handles hm nofun ?_)
  obtain ⟨more, hmore⟩ := List.head?_eq_some_iff.mp hk
  obtain ⟨s₄, e₄, mine, rfl, -⟩ := exists_token (hm.trans hmore)
  refine if_neg fun hstop => ?_
  simp only [List.mem_cons, List.not_mem_nil, or_false] at hstop
  rcases hstop with rfl | rfl <;> cases hn

theorem adds_members (hv : ∀ member ∈ members, member.2.value.Parses)
    (hm : mine.map (·.kind) = memberTokens members) (rest : List Token) (start : Mark)
    (goals : List Goal) (handles : List (List Char × Tag)) :
    Adds ⟨mine ++ rest, .flowKey false start :: goals, handles⟩ (memberNodes members)
      ⟨rest, goals, handles⟩ := by
  induction members generalizing mine with
  | nil =>
    obtain ⟨s, e, more, rfl, hnil⟩ := exists_token hm
    obtain rfl := List.map_eq_nil_iff.mp hnil
    exact adds_step rfl fun _ _ _ => rfl
  | cons member members ih =>
    obtain ⟨key, gap, value, gap'⟩ := member
    obtain ⟨hv, hvs⟩ := List.forall_mem_cons.mp hv
    obtain ⟨s₀, e₀, more, rfl, hkey⟩ := exists_token hm
    obtain ⟨s₁, e₁, more, rfl, hname⟩ := exists_token hkey
    obtain ⟨s₂, e₂, more, rfl, hcolon⟩ := exists_token hname
    obtain ⟨s₃, e₃, more, rfl, hmore⟩ := exists_token hcolon
    obtain ⟨own, others, rfl, ho, hos⟩ := List.map_eq_append_iff.mp hmore
    have hmember : Adds ⟨⟨.flowEntry, s₀, e₀⟩ :: ⟨.key, s₁, e₁⟩ ::
        ⟨.scalar key.name.toList .doubleQuoted, s₂, e₂⟩ :: ⟨.value, s₃, e₃⟩ ::
          (own ++ (others ++ rest)), .flowKey false start :: goals, handles⟩
        (.scalar none key.name.toList .doubleQuoted :: value.nodes)
        ⟨others ++ rest, .flowKey false start :: goals, handles⟩ := hv.member key.name ho rfl
    simp only [List.cons_append, List.append_assoc]
    exact hmember.trans (ih hvs hos)

theorem parses_array {first : Spaced Source} (hi : ∀ item ∈ first :: items, item.value.Parses) :
    (array first items).Parses := by
  intro block goal goals goals' front mine rest handles hm _ hs
  obtain ⟨gap, value, gap'⟩ := first
  obtain ⟨hi, his⟩ : value.Parses ∧ ∀ item ∈ items, item.value.Parses :=
    List.forall_mem_cons.mp hi
  obtain ⟨start, stop, more, rfl, hmore⟩ := exists_token hm
  obtain ⟨own, others, rfl, ho, hos⟩ := List.map_eq_append_iff.mp hmore
  have hitem : Adds ⟨own ++ (others ++ rest), .flowItem true start :: goals', handles⟩ value.nodes
      ⟨others ++ rest, .flowItem false start :: goals', handles⟩ :=
    hi.item ho (Yaml.Grammar.step_firstItem _ goals' start)
  rw [List.cons_append, List.append_assoc] at hs
  exact (adds_step (hs.trans (Yaml.Grammar.node_flowSequence ..)) fun _ _ _ => rfl).trans
    (hitem.trans (adds_items his hos rest start goals' handles))

theorem parses_object {first : Key × Spaced Source}
    (hv : ∀ member ∈ first :: members, member.2.value.Parses) :
    (object first members).Parses := by
  intro block goal goals goals' front mine rest handles hm _ hs
  obtain ⟨key, gap, value, gap'⟩ := first
  obtain ⟨hv, hvs⟩ : value.Parses ∧ ∀ member ∈ members, member.2.value.Parses :=
    List.forall_mem_cons.mp hv
  obtain ⟨start, stop, more, rfl, hkey⟩ := exists_token hm
  obtain ⟨s₁, e₁, more, rfl, hname⟩ := exists_token hkey
  obtain ⟨s₂, e₂, more, rfl, hcolon⟩ := exists_token hname
  obtain ⟨s₃, e₃, more, rfl, hmore⟩ := exists_token hcolon
  obtain ⟨own, others, rfl, ho, hos⟩ := List.map_eq_append_iff.mp hmore
  have hmember : Adds ⟨⟨.key, s₁, e₁⟩ :: ⟨.scalar key.name.toList .doubleQuoted, s₂, e₂⟩ ::
      ⟨.value, s₃, e₃⟩ :: (own ++ (others ++ rest)), .flowKey true start :: goals', handles⟩
      (.scalar none key.name.toList .doubleQuoted :: value.nodes)
      ⟨others ++ rest, .flowKey false start :: goals', handles⟩ := hv.member key.name ho rfl
  simp only [List.cons_append, List.append_assoc] at hs
  exact (adds_step (hs.trans (Yaml.Grammar.node_flowMapping ..)) fun _ _ _ => rfl).trans
    (hmember.trans (adds_members hvs hos rest start goals' handles))

theorem parses_emptyArray (gap : List Char) : (emptyArray gap).Parses := by
  intro block goal goals goals' front mine rest handles hm _ hs
  obtain ⟨start, stop, more, rfl, hmore⟩ := exists_token hm
  obtain ⟨s, e, more, rfl, hnil⟩ := exists_token hmore
  obtain rfl := List.map_eq_nil_iff.mp hnil
  have hend : Adds ⟨⟨.flowSequenceEnd, s, e⟩ :: rest, .flowItem true start :: goals', handles⟩
      [.sequenceEnd] ⟨rest, goals', handles⟩ := adds_step rfl fun _ _ _ => rfl
  exact (adds_step (hs.trans (Yaml.Grammar.node_flowSequence ..)) fun _ _ _ => rfl).trans hend

theorem parses_emptyObject (gap : List Char) : (emptyObject gap).Parses := by
  intro block goal goals goals' front mine rest handles hm _ hs
  obtain ⟨start, stop, more, rfl, hmore⟩ := exists_token hm
  obtain ⟨s, e, more, rfl, hnil⟩ := exists_token hmore
  obtain rfl := List.map_eq_nil_iff.mp hnil
  have hend : Adds ⟨⟨.flowMappingEnd, s, e⟩ :: rest, .flowKey true start :: goals', handles⟩
      [.mappingEnd] ⟨rest, goals', handles⟩ := adds_step rfl fun _ _ _ => rfl
  exact (adds_step (hs.trans (Yaml.Grammar.node_flowMapping ..)) fun _ _ _ => rfl).trans hend

theorem IsShared.parses (h : s.IsShared depth) : s.Parses := by
  induction h with
  | word | string => exact fun block => Yaml.Grammar.parses_scalar block false _ _
  | emptyArray => exact parses_emptyArray _
  | array _ _ ih => exact parses_array ih
  | emptyObject => exact parses_emptyObject _
  | object _ _ _ _ ih => exact parses_object ih

/-- Every node has a token of its own. -/
def HasTokens (s : Source) : Prop := s.nodes.length ≤ s.tokens.length

theorem length_itemNodes_le (hi : ∀ item ∈ items, item.value.HasTokens) :
    (itemNodes items).length ≤ (itemTokens items).length := by
  induction items with
  | nil => exact Nat.le_refl _
  | cons item items ih =>
    obtain ⟨gap, value, gap'⟩ := item
    obtain ⟨hi, his⟩ : value.nodes.length ≤ value.tokens.length ∧
        ∀ item ∈ items, item.value.HasTokens := List.forall_mem_cons.mp hi
    have hr := ih his
    simp only [itemNodes, itemTokens, List.length_cons, List.length_append]
    omega

theorem length_memberNodes_le (hv : ∀ member ∈ members, member.2.value.HasTokens) :
    (memberNodes members).length ≤ (memberTokens members).length := by
  induction members with
  | nil => exact Nat.le_refl _
  | cons member members ih =>
    obtain ⟨key, gap, value, gap'⟩ := member
    obtain ⟨hv, hvs⟩ : value.nodes.length ≤ value.tokens.length ∧
        ∀ member ∈ members, member.2.value.HasTokens := List.forall_mem_cons.mp hv
    have hr := ih hvs
    simp only [memberNodes, memberTokens, List.length_cons, List.length_append]
    omega

theorem IsShared.hasTokens (h : s.IsShared depth) : s.HasTokens := by
  induction h with
  | word | string | emptyArray | emptyObject => exact Nat.le_refl _
  | @array first items _ _ _ ih =>
    obtain ⟨gap, value, gap'⟩ := first
    obtain ⟨hi, his⟩ : value.nodes.length ≤ value.tokens.length ∧
        ∀ item ∈ items, item.value.HasTokens := List.forall_mem_cons.mp ih
    have hr := length_itemNodes_le his
    simp only [HasTokens, nodes, tokens, List.length_cons, List.length_append]
    omega
  | @object first members _ _ _ _ _ ih =>
    obtain ⟨key, gap, value, gap'⟩ := first
    obtain ⟨hv, hvs⟩ : value.nodes.length ≤ value.tokens.length ∧
        ∀ member ∈ members, member.2.value.HasTokens := List.forall_mem_cons.mp ih
    have hr := length_memberNodes_le hvs
    simp only [HasTokens, nodes, tokens, List.length_cons, List.length_append]
    omega

theorem itemNodes_eq (items : List (Spaced Source)) :
    itemNodes items = items.flatMap (·.value.nodes) ++ [.sequenceEnd] := by
  induction items with
  | nil => rfl
  | cons item items ih => rw [itemNodes, ih, List.flatMap_cons, List.append_assoc]

theorem itemTrees_eq (items : List (Spaced Source)) :
    itemTrees items = items.map (·.value.tree) := by
  induction items with
  | nil => rfl
  | cons item items ih => rw [itemTrees, ih, List.map_cons]

/-- A member between braces. -/
def memberNodesOf (member : Key × Spaced Source) : Yaml.MemberNodes :=
  ⟨member.1.name, .doubleQuoted, member.2.value.nodes, member.2.value.tree⟩

theorem memberNodes_eq (members : List (Key × Spaced Source)) :
    memberNodes members = (members.map memberNodesOf).flatMap (·.all) ++ [.mappingEnd] := by
  induction members with
  | nil => rfl
  | cons member members ih =>
    rw [memberNodes, ih, List.map_cons, List.flatMap_cons, List.append_assoc]
    rfl

theorem memberTrees_eq (members : List (Key × Spaced Source)) :
    memberTrees members = (members.map memberNodesOf).map fun m => (m.key, m.tree) := by
  induction members with
  | nil => rfl
  | cons member members ih =>
    rw [memberTrees, ih]
    rfl

theorem readsAs_word (h : Agreed letters value) (depth : Nat) :
    ReadsAs depth [.scalar none letters .plain] value := by
  cases h with
  | null => exact readsAs_scalar rfl .null depth
  | true | false => exact readsAs_scalar rfl .bool depth
  | number hj hy =>
    have hc : Content.ofScalar none false _ .plain = .ok (.number _) :=
      (Yaml.ofScalar_plain _).trans (by rw [hy]; rfl)
    exact readsAs_scalar hc (.number (Yaml.toTree_of_resolve (isNumberChar_of_agreed hj) hy)) depth

/-- The nodes of a text are read as its tree. -/
theorem IsShared.readsAs (h : s.IsShared depth) : ReadsAs (depth + 1) s.nodes s.tree := by
  induction h with
  | word h => exact readsAs_word h.agreed _
  | string => exact readsAs_scalar rfl .string _
  | @emptyArray _ depth =>
    have hi : ∀ item ∈ ([] : List (List Node × Tree)), ReadsAs (depth + 1) item.1 item.2 := nofun
    exact Yaml.readsAs_array hi
  | @array first items _ _ _ ih =>
    have hi : ∀ item ∈ (first :: items).map fun item => (item.value.nodes, item.value.tree),
        ReadsAs _ item.1 item.2 := List.forall_mem_map.mpr ih
    have h := Yaml.readsAs_array hi
    rw [List.flatMap_map, List.map_map] at h
    obtain ⟨gap, value, gap'⟩ := first
    rw [nodes, tree, itemNodes_eq, itemTrees_eq, ← List.append_assoc]
    exact h
  | @emptyObject _ depth =>
    have hm : ∀ m ∈ ([] : List Yaml.MemberNodes), ReadsAs (depth + 1) m.value m.tree := nofun
    refine Yaml.readsAs_object ?_ ?_ ?_ hm
    · exact List.forall_mem_nil _
    · exact List.forall_mem_nil _
    · exact List.nodup_nil
  | @object first members _ hk hd _ _ ih =>
    have hm : ∀ m ∈ (first :: members).map memberNodesOf, ReadsAs _ m.value m.tree :=
      List.forall_mem_map.mpr ih
    have hown : ∀ m ∈ (first :: members).map memberNodesOf, m.key ≠ "<<" :=
      List.forall_mem_map.mpr fun member hmem => (hk member hmem).own
    have hc : ∀ m ∈ (first :: members).map memberNodesOf,
        Content.ofScalar none false m.key.toList m.style = .ok (.string m.key.toList) :=
      List.forall_mem_map.mpr fun _ _ => rfl
    have hn : (((first :: members).map memberNodesOf).map (·.key)).Nodup := by
      rw [List.map_map]
      exact hd
    have h := Yaml.readsAs_object hc hown hn hm
    obtain ⟨key, gap, value, gap'⟩ := first
    rw [nodes, tree, memberNodes_eq, memberTrees_eq, ← List.cons_append, ← List.append_assoc]
    exact h

end Source

/-- As YAML, a document that both notations share is a value that becomes its tree. -/
theorem Spaced.IsShared.load {document : Spaced Source} (h : document.IsShared 127) :
    ∃ value, Yaml.load (String.ofList document.text) = .ok value ∧
      value.Becomes document.value.tree := by
  obtain ⟨tokens, ht, hkinds⟩ := h.tokens
  rw [← String.toList_ofList (l := document.text)] at ht
  have hl := h.value.hasTokens
  obtain ⟨hnodes, hfault, hcont⟩ := Yaml.document_ofText (h.value.parses true)
    document.value.tokens_head (Nat.le_trans hl (Nat.le_mul_of_pos_left _ Nat.two_pos)) ht hkinds
  exact Yaml.load_of_readsAs h.value.readsAs hnodes hfault hcont

end ApiPresence

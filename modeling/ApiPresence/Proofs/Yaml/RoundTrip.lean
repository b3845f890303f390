import ApiPresence.Proofs.Json.RoundTrip
import ApiPresence.Proofs.Yaml.Conversion
import ApiPresence.Proofs.Yaml.Document
import ApiPresence.Proofs.Yaml.Scalar

namespace ApiPresence.Yaml

variable {d : Document} {p : Progress} {nodes rest : List Node} {fuel depth index : Nat}
  {path : Path}

/-- The place so many nodes further on. -/
def Progress.past (p : Progress) (count : Nat) : Progress :=
  { p with position := p.position + count }

theorem Progress.past_past (p : Progress) (m n : Nat) : (p.past m).past n = p.past (m + n) := by
  rw [past, past, past, Nat.add_assoc]

namespace Document

/-- The nodes that come next in a document. -/
def HasNext (d : Document) (p : Progress) (nodes : List Node) : Prop :=
  ∃ rest, (d.nodes.toList.map Prod.fst).drop p.position = nodes ++ rest

theorem HasNext.past (h : d.HasNext p (nodes ++ rest)) : d.HasNext (p.past nodes.length) rest := by
  obtain ⟨more, hd⟩ := h
  refine ⟨more, ?_⟩
  rw [Progress.past, ← List.drop_drop, hd, List.append_assoc, List.drop_left]

theorem HasNext.past_cons (h : d.HasNext p (node :: rest)) : d.HasNext (p.past 1) rest := by
  rw [← List.singleton_append] at h
  exact h.past

theorem HasNext.left (h : d.HasNext p (nodes ++ rest)) : d.HasNext p nodes := by
  obtain ⟨more, hd⟩ := h
  exact ⟨rest ++ more, by rw [hd, List.append_assoc]⟩

theorem HasNext.peek (h : d.HasNext p (node :: rest)) : ∃ mark, d.peek p = .ok (node, mark) := by
  obtain ⟨more, hd⟩ := h
  have hn : (d.nodes.toList.map Prod.fst)[p.position]? = some node := by
    rw [← List.head?_drop, hd]
    rfl
  rw [List.getElem?_map, Option.map_eq_some_iff] at hn
  obtain ⟨⟨_, mark⟩, hn, rfl⟩ := hn
  refine ⟨mark, ?_⟩
  rw [Document.peek, ← Array.getElem?_toList, hn]

theorem readValue_scalar (h : d.HasNext p (.scalar none text style :: rest))
    (hc : Content.ofScalar none false text style = .ok content) (path : Path) (depth : Nat) :
    ∃ mark, d.readValue (fuel + 1) path depth false p = located path mark (match content with
      | .null => .ok (.null, next p)
      | .bool value => .ok (.bool value, next p)
      | .number value => .ok (.number value, next p)
      | .string value => .ok (.string (String.ofList value), next p)
      | .wide value =>
        .error (mismatch (.wrongType (Content.wide value).found "any YAML value"))) := by
  obtain ⟨mark, hm⟩ := h.peek
  refine ⟨mark, ?_⟩
  simp only [readValue, hm, ok_bind, hc]
  cases content <;> rfl

end Document

theorem resolve_of_needsQuotes (h : needsQuotes text = false) : resolve text = .string := by
  simp only [needsQuotes, Bool.or_eq_false_iff, bne_eq_false_iff_eq] at h
  exact h.1

theorem ofScalar_plain (text : List Char) : Content.ofScalar none false text .plain =
    .ok (Content.ofResolved text (resolve text)) := rfl

/-- A string is the content of what is written for it, whatever its style. -/
theorem ofScalar_string (s : String) :
    Content.ofScalar none false s.toList (styleOf s.toList).scalarStyle =
      .ok (.string s.toList) := by
  cases hs : styleOf s.toList with
  | plain =>
    have hr := resolve_of_needsQuotes (plain_of_styleOf hs).1
    exact (ofScalar_plain s.toList).trans (hr ▸ rfl)
  | _ => rfl

/-- The contents of scalars that are turned into trees as they are. -/
inductive IsTree : Content → Tree → Prop
  | null : IsTree .null .null
  | bool : IsTree (.bool value) (.bool value)
  | number (h : (Value.number n).toTree = .ok (.number n)) : IsTree (.number n) (.number n)
  | string : IsTree (.string s.toList) (.string s)

/-- Nodes that are read as a value that becomes a tree. -/
structure ReadsAs (depth : Nat) (nodes : List Node) (t : Tree) : Prop where
  starts : ∃ node more, nodes = node :: more ∧ node ≠ .sequenceEnd ∧ node ≠ .void
  reads : ∀ d fuel path p, Document.HasNext d p nodes → nodes.length ≤ fuel →
    ∃ v, d.readValue fuel path depth false p = .ok (v, p.past nodes.length) ∧ v.Becomes t

theorem ReadsAs.length_pos (h : ReadsAs depth nodes t) : 0 < nodes.length := by
  obtain ⟨node, more, rfl, -⟩ := h.starts
  exact Nat.zero_lt_succ _

theorem readsAs_scalar (hc : Content.ofScalar none false text style = .ok content)
    (ht : IsTree content t) (depth : Nat) : ReadsAs depth [.scalar none text style] t := by
  refine ⟨⟨_, _, rfl, nofun, nofun⟩, fun d fuel path p hd hf => ?_⟩
  obtain ⟨fuel, rfl⟩ := Nat.exists_eq_add_of_le' hf
  obtain ⟨mark, hr⟩ := Document.readValue_scalar hd hc path depth
  cases ht with
  | null => exact ⟨_, hr, _, rfl, rfl⟩
  | bool => exact ⟨_, hr, _, rfl, rfl⟩
  | number h => exact ⟨_, hr, _, rfl, h⟩
  | @string s =>
    exact ⟨.string (String.ofList s.toList), hr, .string s, by rw [String.ofList_toList]; rfl, rfl⟩

theorem Leaf.readsAs (h : Leaf t) (depth : Nat) : ReadsAs depth (treeNodes t) t.sorted := by
  rw [h.nodes_eq]
  cases h with
  | null => exact readsAs_scalar rfl .null depth
  | @bool value => cases value <;> exact readsAs_scalar rfl .bool depth
  | @whole n hn =>
    have hc : Content.ofScalar none false (FloatNotation.wholeOf n) .plain =
        .ok (.number (.whole n hn)) := by
      rw [ofScalar_plain, resolve_wholeOf hn]
      rfl
    exact readsAs_scalar hc (.number rfl) depth
  | @string s => exact readsAs_scalar (ofScalar_string s) .string depth

theorem readItems_nil (h : d.HasNext p [.sequenceEnd]) :
    d.readItems (fuel + 1) path depth index p = .ok ([], p.past 1) := by
  obtain ⟨mark, hm⟩ := h.peek
  simp only [Document.readItems, hm, ok_bind]
  rfl

theorem readItems_cons (hd : d.HasNext p (node :: rest)) (hn : node ≠ .sequenceEnd ∧ node ≠ .void)
    (hi : d.readValue fuel (.item index :: path) depth false p = .ok (v, q))
    (hr : d.readItems fuel path depth (index + 1) q = .ok (vs, r)) :
    d.readItems (fuel + 1) path depth index p = .ok (v :: vs, r) := by
  obtain ⟨mark, hm⟩ := hd.peek
  rw [Document.readItems, hm, ok_bind]
  split
  · next he => exact absurd (congrArg Prod.fst he) hn.1
  · next he => exact absurd (congrArg Prod.fst he) hn.2
  · simp only [hi, ok_bind, hr]

variable {items : List (List Node × Tree)}

theorem readItems_nodes (hi : ∀ item ∈ items, ReadsAs depth item.1 item.2)
    (hd : d.HasNext p (items.flatMap Prod.fst ++ [.sequenceEnd]))
    (hf : (items.flatMap Prod.fst).length ≤ fuel) (path : Path) (index : Nat) :
    ∃ vs, d.readItems (fuel + 1) path depth index p =
        .ok (vs, p.past ((items.flatMap Prod.fst).length + 1)) ∧
      List.Forall₂ Value.Becomes vs (items.map Prod.snd) := by
  induction items generalizing fuel index p with
  | nil => exact ⟨[], readItems_nil hd, .nil⟩
  | cons item items ih =>
    obtain ⟨hi, his⟩ := List.forall_mem_cons.mp hi
    obtain ⟨node, more, hn, hends⟩ := hi.starts
    have hpos := hi.length_pos
    rw [List.flatMap_cons, List.length_append] at hf ⊢
    rw [List.flatMap_cons, List.append_assoc] at hd
    obtain ⟨fuel, rfl⟩ := Nat.exists_eq_add_one_of_ne_zero (n := fuel) (by omega)
    obtain ⟨v, hv, hb⟩ := hi.reads d (fuel + 1) (.item index :: path) p hd.left (by omega)
    obtain ⟨vs, hvs, hbs⟩ := ih his hd.past (show _ ≤ fuel by omega) (index + 1)
    rw [Progress.past_past, ← Nat.add_assoc] at hvs
    rw [hn] at hd
    exact ⟨v :: vs, readItems_cons hd hends hv hvs, .cons hb hbs⟩

theorem readValue_sequence {items : List Value}
    (hd : d.HasNext p (.sequenceStart none :: rest))
    (h : d.readItems fuel path depth 0 (p.past 1) = .ok (items, q)) :
    d.readValue (fuel + 1) path (depth + 1) false p = .ok (.sequence items, q) := by
  obtain ⟨mark, hm⟩ := hd.peek
  have hi : d.readItems fuel path depth 0 (Document.next p) = .ok (items, q) := h
  simp only [Document.readValue, hm, ok_bind, hi, Bool.false_eq_true, if_false, Option.bind_none]
  rfl

/-- The nodes of some items make up those of an array. -/
theorem readsAs_array (hi : ∀ item ∈ items, ReadsAs depth item.1 item.2) :
    ReadsAs (depth + 1) (.sequenceStart none :: (items.flatMap Prod.fst ++ [.sequenceEnd]))
      (.array (items.map Prod.snd)) := by
  refine ⟨⟨_, _, rfl, nofun, nofun⟩, fun d fuel path p hd hf => ?_⟩
  have hl : (Node.sequenceStart none :: (items.flatMap Prod.fst ++ [.sequenceEnd])).length =
      1 + ((items.flatMap Prod.fst).length + 1) := by
    simp [Nat.add_comm]
  rw [hl] at hf ⊢
  obtain ⟨fuel, rfl⟩ := Nat.exists_eq_add_of_le' (Nat.le_trans (by omega : 2 ≤ _) hf)
  obtain ⟨vs, hvs, hbs⟩ := readItems_nodes hi hd.past_cons (show _ ≤ fuel by omega) path 0
  rw [Progress.past_past] at hvs
  exact ⟨.sequence vs, readValue_sequence hd hvs, Value.becomes_sequence_iff.mpr ⟨_, hbs, rfl⟩⟩

/-- A member of a mapping as it stands in a document, and what its value is read as. -/
structure MemberNodes where
  key : String
  style : ScalarStyle
  value : List Node
  tree : Tree

def MemberNodes.all (m : MemberNodes) : List Node := .scalar none m.key.toList m.style :: m.value

theorem readEntries_nil (h : d.HasNext p [.mappingEnd]) (before : List (Value × Value)) :
    d.readEntries (fuel + 1) path depth before p = .ok ([], p.past 1) := by
  obtain ⟨mark, hm⟩ := h.peek
  simp only [Document.readEntries, hm, ok_bind]
  rfl

theorem readEntries_cons {q r s : Progress} {key v : Value}
    (hd : d.HasNext p (.scalar none text style :: rest))
    (hk : d.readValue fuel path depth false p = .ok (key, q))
    (hf : Value.findEntry key before = none)
    (hv : d.readValue fuel (.member (String.ofList text) :: path) depth false q = .ok (v, r))
    (hr : d.readEntries fuel path depth (before ++ [(key, v)]) r = .ok (entries, s)) :
    d.readEntries (fuel + 1) path depth before p = .ok ((key, v) :: entries, s) := by
  obtain ⟨mark, hm⟩ := hd.peek
  simp only [Document.readEntries, hm, ok_bind, hk, hf, hv, hr]

/-- A key that is a string and not among others is not found among them. -/
theorem findEntry_eq_none (h : ∀ e ∈ entries, ∃ k, e.1 = .string k ∧ k ≠ key) :
    Value.findEntry (.string key) entries = none := by
  rw [Value.findEntry, List.find?_eq_none]
  intro e he
  obtain ⟨k, hk, hn⟩ := h e he
  rw [hk, Value.same_string_iff, Value.string.injEq]
  exact hn.symm

theorem readValue_key {key : String}
    (hc : Content.ofScalar none false key.toList style = .ok (.string key.toList))
    (hd : d.HasNext p (.scalar none key.toList style :: rest)) (fuel : Nat) (path : Path)
    (depth : Nat) :
    d.readValue (fuel + 1) path depth false p = .ok (.string key, p.past 1) := by
  obtain ⟨mark, hv⟩ := Document.readValue_scalar hd hc path depth
  rw [hv]
  simp only [String.ofList_toList]
  rfl

variable {members : List MemberNodes}

theorem readEntries_nodes
    (hk : ∀ m ∈ members, Content.ofScalar none false m.key.toList m.style =
      .ok (.string m.key.toList))
    (hn : (members.map (·.key)).Nodup) (hm : ∀ m ∈ members, ReadsAs depth m.value m.tree)
    (before : List (Value × Value))
    (hb : ∀ e ∈ before, ∃ k, e.1 = .string k ∧ k ∉ members.map (·.key))
    (hd : d.HasNext p (members.flatMap (·.all) ++ [.mappingEnd]))
    (hf : (members.flatMap (·.all)).length ≤ fuel) (path : Path) :
    ∃ entries, d.readEntries (fuel + 1) path depth before p =
        .ok (entries, p.past ((members.flatMap (·.all)).length + 1)) ∧
      List.Forall₂ (fun e m => e.1 = .string m.1 ∧ e.2.Becomes m.2) entries
        (members.map fun m => (m.key, m.tree)) := by
  induction members generalizing fuel p before with
  | nil => exact ⟨[], readEntries_nil hd before, .nil⟩
  | cons member members ih =>
    obtain ⟨key, style, nodes, tree⟩ := member
    obtain ⟨hk, hks⟩ := List.forall_mem_cons.mp hk
    obtain ⟨hm, hms⟩ : ReadsAs depth nodes tree ∧ ∀ m ∈ members, ReadsAs depth m.value m.tree :=
      List.forall_mem_cons.mp hm
    rw [List.map_cons, List.nodup_cons] at hn
    have hpos := hm.length_pos
    have hall : (⟨key, style, nodes, tree⟩ : MemberNodes).all =
        .scalar none key.toList style :: nodes := rfl
    rw [List.flatMap_cons, hall, List.cons_append, List.length_cons, List.length_append] at hf ⊢
    rw [List.flatMap_cons, hall, List.cons_append, List.cons_append, List.append_assoc] at hd
    obtain ⟨fuel, rfl⟩ := Nat.exists_eq_add_one_of_ne_zero (n := fuel) (by omega)
    have hkey := readValue_key hk hd fuel path depth
    have hnone : Value.findEntry (.string key) before = none := by
      refine findEntry_eq_none fun e he => ?_
      obtain ⟨k, hek, hkn⟩ := hb e he
      exact ⟨k, hek, fun h => hkn (h ▸ List.mem_cons_self)⟩
    have hafter : d.HasNext (p.past 1) (nodes ++ (members.flatMap (·.all) ++ [.mappingEnd])) :=
      hd.past_cons
    obtain ⟨v, hv, hvb⟩ := hm.reads d (fuel + 1) (.member (String.ofList key.toList) :: path)
      (p.past 1) hafter.left (by omega)
    have hb' : ∀ e ∈ before ++ [(.string key, v)],
        ∃ k, e.1 = .string k ∧ k ∉ members.map (·.key) := by
      intro e he
      rcases List.mem_append.mp he with he | he
      · obtain ⟨k, hek, hkn⟩ := hb e he
        exact ⟨k, hek, fun h => hkn (List.mem_cons_of_mem _ h)⟩
      · exact ⟨key, by rw [List.mem_singleton.mp he], hn.1⟩
    obtain ⟨entries, he, hbs⟩ := ih hks hn.2 hms _ hb' hafter.past (show _ ≤ fuel by omega)
    have hp : ((p.past 1).past nodes.length).past ((members.flatMap (·.all)).length + 1) =
        p.past (nodes.length + (members.flatMap (·.all)).length + 1 + 1) := by
      rw [Progress.past_past, Progress.past_past]
      exact congrArg p.past (by omega)
    exact ⟨(.string key, v) :: entries, hp ▸ readEntries_cons hd hkey hnone hv he,
      .cons ⟨rfl, hvb⟩ hbs⟩

theorem readValue_mapping (hd : d.HasNext p (.mappingStart none :: rest))
    (h : d.readEntries fuel path depth [] (p.past 1) = .ok (entries, q)) :
    d.readValue (fuel + 1) path (depth + 1) false p = .ok (.mapping entries, q) := by
  obtain ⟨mark, hm⟩ := hd.peek
  have hi : d.readEntries fuel path depth [] (Document.next p) = .ok (entries, q) := h
  simp only [Document.readValue, hm, ok_bind, hi, Bool.false_eq_true, if_false, Option.bind_none]
  rfl

/-- The keys of a mapping that has been written are its own, and become those of an object. -/
theorem becomes_members {entries : List (Value × Value)} {members : List (String × Tree)}
    (hn : ∀ m ∈ members, m.1 ≠ "<<")
    (h : List.Forall₂ (fun e m => e.1 = .string m.1 ∧ e.2.Becomes m.2) entries members) :
    (Value.mapping entries).Becomes (.ofEntries members) := by
  have hm : Value.takeMerge entries = none := by
    refine Value.takeMerge_eq_none_iff.mpr fun e he => ?_
    obtain ⟨m, hm, hk, -⟩ := forall₂_mem_left h he
    rw [Bool.eq_false_iff, ne_eq, Value.isMergeKey_iff, hk, Value.string.injEq]
    exact hn m hm
  refine Value.becomes_mapping_iff.mpr ⟨entries, members, by rw [Value.mergeOwn, hm], ?_, rfl⟩
  refine h.imp fun e m he => ⟨?_, he.2⟩
  rw [he.1]
  rfl

/-- The nodes of some members make up those of an object. -/
theorem readsAs_object
    (hk : ∀ m ∈ members, Content.ofScalar none false m.key.toList m.style =
      .ok (.string m.key.toList))
    (hown : ∀ m ∈ members, m.key ≠ "<<") (hn : (members.map (·.key)).Nodup)
    (hm : ∀ m ∈ members, ReadsAs depth m.value m.tree) :
    ReadsAs (depth + 1) (.mappingStart none :: (members.flatMap (·.all) ++ [.mappingEnd]))
      (.ofEntries (members.map fun m => (m.key, m.tree))) := by
  refine ⟨⟨_, _, rfl, nofun, nofun⟩, fun d fuel path p hd hf => ?_⟩
  have hl : (Node.mappingStart none :: (members.flatMap (·.all) ++ [.mappingEnd])).length =
      1 + ((members.flatMap (·.all)).length + 1) := by
    simp [Nat.add_comm]
  rw [hl] at hf ⊢
  obtain ⟨fuel, rfl⟩ := Nat.exists_eq_add_of_le' (Nat.le_trans (by omega : 2 ≤ _) hf)
  obtain ⟨entries, he, hbs⟩ := readEntries_nodes hk hn hm [] nofun hd.past_cons
    (show _ ≤ fuel by omega) path
  rw [Progress.past_past] at he
  refine ⟨.mapping entries, readValue_mapping hd he, becomes_members (fun m hmem => ?_) hbs⟩
  obtain ⟨member, hmember, rfl⟩ := List.mem_map.mp hmem
  exact hown member hmember

theorem itemNodes_eq (items : List Tree) : itemNodes items = items.flatMap treeNodes := by
  induction items with
  | nil => rfl
  | cons item items ih => rw [itemNodes, ih, List.flatMap_cons]

/-- A member that is written in a block. -/
def MemberNodes.ofMember (m : String × Tree) : MemberNodes :=
  ⟨m.1, .plain, treeNodes m.2, m.2.sorted⟩

theorem memberNodes_eq (members : List (String × Tree)) :
    memberNodes members = (members.map MemberNodes.ofMember).flatMap (·.all) := by
  induction members with
  | nil => rfl
  | cons member members ih =>
    obtain ⟨key, value⟩ := member
    rw [memberNodes, ih]
    rfl

/-- The nodes of a tree of blocks are read as the tree, its members in order. -/
theorem readsAs_of_printable (h : Printable depth t) : ReadsAs depth (treeNodes t) t.sorted := by
  induction h with
  | leaf h => exact h.readsAs _
  | @array items depth _ _ ih =>
    have hi : ∀ item ∈ items.map fun t => (treeNodes t, t.sorted),
        ReadsAs depth item.1 item.2 := List.forall_mem_map.mpr ih
    have h := readsAs_array hi
    rw [List.flatMap_map, List.map_map] at h
    rw [treeNodes, itemNodes_eq, Tree.sorted, Tree.sortedItems_eq]
    exact h
  | @object members depth _ hk hn _ ih =>
    have hm : ∀ m ∈ members.map MemberNodes.ofMember, ReadsAs depth m.value m.tree :=
      List.forall_mem_map.mpr ih
    have hc : ∀ m ∈ members.map MemberNodes.ofMember,
        Content.ofScalar none false m.key.toList m.style = .ok (.string m.key.toList) :=
      List.forall_mem_map.mpr fun m hmem => by
        have hs := ofScalar_string m.1
        rwa [(hk m hmem).style] at hs
    have hown : ∀ m ∈ members.map MemberNodes.ofMember, m.key ≠ "<<" :=
      List.forall_mem_map.mpr fun m hmem => (hk m hmem).own
    have hd : ((members.map MemberNodes.ofMember).map (·.key)).Nodup := by
      rw [List.map_map]
      exact hn
    have h := readsAs_object hc hown hd hm
    rw [List.map_map] at h
    rw [treeNodes, memberNodes_eq, Tree.sorted, Tree.sortedMembers_eq]
    exact h

/-- A text that is one document is loaded as what its nodes are read as. -/
theorem load_of_readsAs {text : String} (hr : ReadsAs Document.depthLimit nodes t)
    (hn : (Document.ofText text).nodes.toList.map Prod.fst = nodes)
    (hfault : (Document.ofText text).fault = none)
    (hcont : (Document.ofText text).continued = false) :
    ∃ v, load text = .ok v ∧ v.Becomes t := by
  have hd : (Document.ofText text).HasNext ⟨0, 0⟩ nodes :=
    ⟨[], by rw [List.drop_zero, hn, List.append_nil]⟩
  have hb : nodes.length ≤ (Document.ofText text).stepBound := by
    rw [← hn, List.length_map, Array.length_toList, Document.stepBound]
    exact (Nat.le_add_right _ 2).trans ((Nat.le_mul_of_pos_left _ (Nat.succ_pos _)).trans
      (Nat.le_mul_of_pos_right _ (by decide)))
  obtain ⟨v, hv, hbecomes⟩ := hr.reads _ _ [] ⟨0, 0⟩ hd hb
  refine ⟨v, ?_, hbecomes⟩
  simp only [load, Document.toValue, Document.readAll, hv, ok_bind, hfault, hcont,
    Bool.false_eq_true, if_false]

/-- What is written for a tree of blocks is read as a value that becomes the tree. -/
theorem load_print (h : Printable Document.depthLimit t) (hn : ¬ Leaf t) :
    ∃ v, load (print t) = .ok v ∧ v.Becomes t.sorted := by
  obtain ⟨hnodes, hfault, hcont⟩ := document_print h hn
  exact load_of_readsAs (readsAs_of_printable h) hnodes hfault hcont

end ApiPresence.Yaml

import ApiPresence.Proofs.Basic
import ApiPresence.Proofs.Tree.Ordered
import ApiPresence.Proofs.Yaml.Conversion

namespace ApiPresence

namespace Json

/-- What is read in so many steps is ordered. -/
structure ReadsOrdered (fuel : Nat) : Prop where
  value {depth text} (h : readValue fuel depth text = .ok (tree, rest)) : tree.Ordered
  items {depth first text read} (h : readItems fuel depth first text = .ok (read, rest)) :
    ∀ item ∈ read, item.Ordered
  entries {depth first text read} (h : readEntries fuel depth first text = .ok (read, rest)) :
    ∀ e ∈ read, e.2.Ordered

theorem readValue_ordered (ih : ReadsOrdered fuel)
    (h : readValue (fuel + 1) depth text = .ok (tree, rest)) : tree.Ordered := by
  unfold readValue at h
  split at h
  case h_1 => cases h
  case h_7 =>
    split at h
    · cases h
    · obtain ⟨read, hi, h⟩ := bind_eq_ok_iff.mp h
      cases h
      exact Tree.ordered_array_iff.mpr (ih.items hi)
  case h_8 =>
    split at h
    · cases h
    · obtain ⟨read, he, h⟩ := bind_eq_ok_iff.mp h
      cases h
      exact Tree.ordered_ofEntries (ih.entries he)
  case h_9 =>
    split at h
    · obtain ⟨read, -, h⟩ := bind_eq_ok_iff.mp h
      cases h
      simp [Tree.Ordered]
    · cases h
  -- A literal, a string or a number with a sign, which has no parts.
  all_goals
    obtain ⟨read, -, h⟩ := bind_eq_ok_iff.mp h
    cases h
    simp [Tree.Ordered]

theorem readItems_ordered {read : List Tree} (ih : ReadsOrdered fuel)
    (h : readItems (fuel + 1) depth first text = .ok (read, rest)) :
    ∀ item ∈ read, item.Ordered := by
  rw [readItems] at h
  obtain ⟨next, -, h⟩ := bind_eq_ok_iff.mp h
  split at h
  · cases h
    exact List.forall_mem_nil _
  · obtain ⟨item, hv, h⟩ := bind_eq_ok_iff.mp h
    obtain ⟨others, hi, h⟩ := bind_eq_ok_iff.mp h
    cases h
    exact List.forall_mem_cons.mpr ⟨ih.value hv, ih.items hi⟩

theorem readEntries_ordered {read : List (String × Tree)} (ih : ReadsOrdered fuel)
    (h : readEntries (fuel + 1) depth first text = .ok (read, rest)) :
    ∀ e ∈ read, e.2.Ordered := by
  rw [readEntries] at h
  obtain ⟨next, -, h⟩ := bind_eq_ok_iff.mp h
  split at h
  · cases h
    exact List.forall_mem_nil _
  · obtain ⟨key, -, h⟩ := bind_eq_ok_iff.mp h
    obtain ⟨rest, -, h⟩ := bind_eq_ok_iff.mp h
    obtain ⟨value, hv, h⟩ := bind_eq_ok_iff.mp h
    obtain ⟨others, he, h⟩ := bind_eq_ok_iff.mp h
    cases h
    exact List.forall_mem_cons.mpr ⟨ih.value hv, ih.entries he⟩

theorem readsOrdered (fuel : Nat) : ReadsOrdered fuel := by
  induction fuel with
  | zero => constructor <;> simp [readValue, readItems, readEntries]
  | succ fuel ih => exact ⟨readValue_ordered ih, readItems_ordered ih, readEntries_ordered ih⟩

theorem ordered_of_parse (h : parse content = .ok tree) : tree.Ordered := by
  obtain ⟨read, hr, h⟩ := bind_eq_ok_iff.mp (mapError_eq_ok_iff.mp h)
  obtain ⟨-, -, h⟩ := bind_eq_ok_iff.mp h
  cases h
  exact (readsOrdered _).value hr

end Json

namespace Yaml.Value

mutual

theorem ordered_of_toTree : (value : Value) → (tree : Tree) → value.toTree = .ok tree → tree.Ordered
  | .null, _, h | .bool _, _, h | .string _, _, h => by
    cases h
    simp [Tree.Ordered]
  | .number n, _, h => by
    rcases toTree_number_eq_ok h with rfl | rfl <;> simp [Tree.Ordered]
  | .sequence items, _, h => by
    obtain ⟨trees, ht, h⟩ := bind_eq_ok_iff.mp h
    cases h
    exact Tree.ordered_array_iff.mpr (ordered_of_toTrees items trees ht)
  | .mapping entries, _, h => by
    obtain ⟨members, hm, h⟩ := bind_eq_ok_iff.mp h
    cases h
    exact Tree.ordered_ofEntries (ordered_of_toEntries entries members hm)
  | .tagged name value, _, h => by
    obtain ⟨tree, ht, h⟩ := bind_eq_ok_iff.mp h
    cases h
    have ho := ordered_of_toTree value tree ht
    simpa [Tree.ordered_object_iff] using ho

theorem ordered_of_toTrees : (items : List Value) → (trees : List Tree) →
    toTrees items = .ok trees → ∀ t ∈ trees, t.Ordered
  | [], _, h => by
    cases h
    exact List.forall_mem_nil _
  | item :: rest, _, h => by
    obtain ⟨tree, ht, h⟩ := bind_eq_ok_iff.mp h
    obtain ⟨trees, hr, h⟩ := bind_eq_ok_iff.mp h
    cases h
    exact List.forall_mem_cons.mpr
      ⟨ordered_of_toTree item tree ht, ordered_of_toTrees rest trees hr⟩

theorem ordered_of_toEntries : (entries : List (Value × Value)) → (members : List (String × Tree)) →
    toEntries entries = .ok members → ∀ m ∈ members, m.2.Ordered
  | [], _, h => by
    cases h
    exact List.forall_mem_nil _
  | (key, value) :: rest, _, h => by
    obtain ⟨text, -, h⟩ := bind_eq_ok_iff.mp h
    obtain ⟨tree, ht, h⟩ := bind_eq_ok_iff.mp h
    obtain ⟨members, hr, h⟩ := bind_eq_ok_iff.mp h
    cases h
    exact List.forall_mem_cons.mpr
      ⟨ordered_of_toTree value tree ht, ordered_of_toEntries rest members hr⟩

end

end Yaml.Value

theorem ordered_of_parseContent (h : parseContent format path content = .ok tree) :
    tree.Ordered := by
  cases format with
  | yaml =>
    obtain ⟨value, -, resolved, -, ht⟩ := Yaml.parseYaml_eq_ok_iff.mp h
    exact Yaml.Value.ordered_of_toTree resolved tree ht
  | json => exact Json.ordered_of_parse (mapError_eq_ok_iff.mp h)

/-- Every document that is read is ordered, so no object of it has a key twice. -/
theorem ordered_of_loadDocument (h : loadDocument fs path = .ok tree) : tree.Ordered := by
  rw [loadDocument] at h
  split at h
  · split at h
    · cases h
    · exact ordered_of_parseContent h
  · cases h

end ApiPresence

import ApiPresence.Proofs.Members

namespace ApiPresence.Tree

variable {document : Tree}

theorem orderedItems_iff : OrderedItems items ↔ ∀ item ∈ items, item.Ordered := by
  induction items with
  | nil => simp [OrderedItems]
  | cons item rest ih => rw [OrderedItems, ih, List.forall_mem_cons]

theorem orderedMembers_iff : OrderedMembers members ↔ ∀ m ∈ members, m.2.Ordered := by
  induction members with
  | nil => simp [OrderedMembers]
  | cons member rest ih => rw [OrderedMembers, ih, List.forall_mem_cons]

theorem ordered_array_iff : (array items).Ordered ↔ ∀ item ∈ items, item.Ordered := by
  rw [Ordered, orderedItems_iff]

theorem ordered_object_iff : (object members).Ordered ↔
    (members.map Prod.fst).Pairwise (· < ·) ∧ ∀ m ∈ members, m.2.Ordered := by
  rw [Ordered, orderedMembers_iff]

theorem ordered_ofEntries (h : ∀ e ∈ entries, e.2.Ordered) : (ofEntries entries).Ordered := by
  show (object (gather entries)).Ordered
  rw [ordered_object_iff]
  refine ⟨gather_sorted entries, ?_⟩
  rintro ⟨key, value⟩ hm
  obtain ⟨before, after, rfl, -⟩ := mem_gather_iff.mp hm
  exact h (key, value) (List.mem_append_right before List.mem_cons_self)

theorem Ordered.reaches (h : document.Ordered) (hr : document.Reaches place node) :
    node.Ordered := by
  induction hr with
  | here => exact h
  | inside hf hr ih =>
    rw [ordered_object_iff] at h
    exact ih (h.2 _ (List.mem_append_right _ List.mem_cons_self))

end ApiPresence.Tree

import ApiPresence.Proofs.Yaml.Conversion
import Mathlib

namespace ApiPresence

/-- A node stands somewhere in a tree. -/
inductive Tree.Holds : Tree → Tree → Prop where
  | here : Holds tree tree
  | item (hi : item ∈ items) (hn : Holds item node) : Holds (.array items) node
  | member (hm : (key, value) ∈ members) (hn : Holds value node) : Holds (.object members) node

/-- No object of a tree has the merge key for a key. -/
def Tree.MergeFree (tree : Tree) : Prop :=
  ∀ members value, tree.Holds (.object members) → ("<<", value) ∉ members

namespace Yaml

namespace Value

/-- A part of a value that stays when merge keys are followed and keys become texts. -/
inductive Kept : Value → Value → Prop where
  | whole : Kept value value
  | item (hi : item ∈ items) (hk : Kept item part) : Kept (.sequence items) part
  | tagged (hk : Kept value part) : Kept (.tagged name value) part
  /-- Of entries whose keys have one text the last counts. -/
  | entry (hm : mergeOwn entries = .ok (before ++ (key, value) :: after))
      (hl : ∀ e ∈ after, e.1.keyText ≠ key.keyText) (hk : Kept value part) :
      Kept (.mapping entries) part

theorem mergeOwn_distinct (hd : (mapping entries).Distinct) (h : mergeOwn entries = .ok merged)
    (he : e ∈ merged) : e.2.Distinct := by
  obtain ⟨origins, own, ho, hp, rfl⟩ := mergeOwn_eq_ok h
  rcases mem_of_mem_foldl_addEntries he with he | ⟨source, hs, he⟩
  · exact hd.entry (List.mem_of_mem_eraseP (hp.mem_iff.mp he))
  · exact (ho.distinct hd hs).entry he

theorem Kept.distinct (h : Kept value part) (hd : value.Distinct) : part.Distinct := by
  induction h with
  | whole => exact hd
  | item hi hk ih => exact ih (hd.element hi)
  | tagged hk ih => exact ih hd.untagged
  | entry hm hl hk ih =>
    apply ih
    exact mergeOwn_distinct hd hm (List.mem_append_right _ List.mem_cons_self)

/-- What is kept of a value becomes a node of its tree. -/
theorem Kept.exists_node (hk : Kept value part) (h : Becomes value tree) :
    ∃ node, Becomes part node ∧ tree.Holds node := by
  induction hk generalizing tree with
  | whole => exact ⟨tree, h, .here⟩
  | item hi hk ih =>
    obtain ⟨trees, ht, rfl⟩ := becomes_sequence_iff.mp h
    obtain ⟨t, hm, hb⟩ := forall₂_mem_left ht hi
    obtain ⟨node, hn, hh⟩ := ih hb
    exact ⟨node, hn, .item hm hh⟩
  | tagged hk ih =>
    obtain ⟨inner, hb, rfl⟩ := becomes_tagged_iff.mp h
    obtain ⟨node, hn, hh⟩ := ih hb
    exact ⟨node, hn, .member (List.mem_singleton_self _) hh⟩
  | @entry _ _ key _ after _ hm hl hk ih =>
    obtain ⟨merged, members, hm', hf, rfl⟩ := becomes_mapping_iff.mp h
    rw [hm] at hm'
    cases hm'
    obtain ⟨first, ⟨s, t⟩, rest, rfl, ⟨hs, hb⟩, hr⟩ := forall₂_append_cons_left hf
    obtain ⟨node, hn, hh⟩ := ih hb
    have hlast : s ∉ rest.map Prod.fst := by
      intro hmem
      obtain ⟨m, hm, rfl⟩ := List.mem_map.mp hmem
      obtain ⟨e, he, ht, -⟩ := forall₂_mem_right hr hm
      exact hl e he (ht.trans hs.symm)
    exact ⟨node, hn, .member (Tree.mem_gather_iff.mpr ⟨first, rest, rfl, hlast⟩) hh⟩

/-- A node of the tree of a value is what something kept of the value has become. -/
theorem Becomes.exists_kept (h : Becomes value tree) (hn : tree.Holds node) :
    ∃ part, Kept value part ∧ Becomes part node := by
  induction hn generalizing value with
  | here => exact ⟨value, .whole, h⟩
  | item hi hn ih =>
    obtain ⟨items, rfl, ht⟩ := h.array_inv
    obtain ⟨item, hm, hb⟩ := forall₂_mem_right ht hi
    obtain ⟨part, hk, hp⟩ := ih hb
    exact ⟨part, .item hm hk, hp⟩
  | member hm hn ih =>
    rcases h.object_inv with ⟨name, inner, tree, rfl, hb, rfl⟩ | ⟨entries, rfl⟩
    · cases List.mem_singleton.mp hm
      obtain ⟨part, hk, hp⟩ := ih hb
      exact ⟨part, .tagged hk, hp⟩
    · obtain ⟨merged, members, ho, hf, he⟩ := becomes_mapping_iff.mp h
      cases he
      obtain ⟨first, rest, rfl, hl⟩ := Tree.mem_gather_iff.mp hm
      obtain ⟨before, ⟨key, value⟩, after, rfl, ⟨hs, hb⟩, hr⟩ := forall₂_append_cons_left hf.flip
      obtain ⟨part, hk, hp⟩ := ih hb
      refine ⟨part, .entry ho (fun e he ht => ?_) hk, hp⟩
      obtain ⟨m, hx, ht', -⟩ := forall₂_mem_right hr he
      rw [ht, hs] at ht'
      cases ht'
      exact hl (List.mem_map_of_mem hx)

/-- The nodes of the tree of a value are what the kept parts of the value become. -/
theorem Becomes.holds_iff (h : Becomes value tree) :
    tree.Holds node ↔ ∃ part, Kept value part ∧ Becomes part node := by
  refine ⟨h.exists_kept, ?_⟩
  rintro ⟨part, hk, hb⟩
  obtain ⟨other, ho, hh⟩ := hk.exists_node h
  cases hb.unique ho
  exact hh

/-- A merge key is taken, as it is, from the first source that has one. -/
theorem exists_taken_mergeKey_iff (entries : List (Value × Value))
    (origins : List (List (Value × Value))) :
    (∃ e, Taken (ownEntries entries) origins e ∧ e.1.isMergeKey = true) ↔
      ∃ source ∈ origins, ∃ e ∈ source, e.1.isMergeKey = true := by
  constructor
  · rintro ⟨e, ht, hk⟩
    cases ht with
    | own he =>
      obtain ⟨-, hn⟩ := mem_ownEntries_iff.mp he
      rw [hk] at hn
      cases hn
    | merged hs he =>
      subst hs
      exact ⟨_, List.mem_append_right _ List.mem_cons_self, e, he, hk⟩
  · rintro ⟨source, hs, e, he, hk⟩
    have hf : (origins.find? fun s => s.any fun e => e.1.isMergeKey).isSome = true :=
      List.find?_isSome.mpr ⟨source, hs, List.any_eq_true.mpr ⟨e, he, hk⟩⟩
    obtain ⟨first, hf⟩ := Option.isSome_iff_exists.mp hf
    obtain ⟨ha, before, after, ho, hb⟩ := List.find?_eq_some_iff_append.mp hf
    obtain ⟨f, hm, hk'⟩ := List.any_eq_true.mp ha
    refine ⟨f, .merged ho hm (fun g hg => ?_) (fun earlier hl g hg => ?_), hk'⟩
    · rw [same_of_isMergeKey hk']
      exact (mem_ownEntries_iff.mp hg).2
    · rw [same_of_isMergeKey hk']
      have hn := hb earlier hl
      simp only [Bool.not_eq_true', List.any_eq_false] at hn
      exact Bool.eq_false_iff.mpr (hn g hg)

/-- The object of a mapping has a merge key exactly when one of its sources does. -/
theorem Becomes.mergeKey_iff (h : Becomes (.mapping entries) (.object members))
    (hd : (mapping entries).Distinct) (hm : MergesFrom entries origins) :
    (∃ tree, ("<<", tree) ∈ members) ↔ ∃ source ∈ origins, ∃ e ∈ source, e.1.isMergeKey = true := by
  rw [← exists_taken_mergeKey_iff entries origins]
  constructor
  · rintro ⟨tree, ht⟩
    obtain ⟨e, he, hk, -⟩ := h.exists_taken hd hm ht
    exact ⟨e, he, keyText_eq_merge_iff.mp hk⟩
  · rintro ⟨e, he, hk⟩
    exact h.exists_member hd hm he (keyText_eq_merge_iff.mpr hk)

end Value

theorem tagText_ne_merge (name : String) : "!" ++ name ≠ "<<" := by
  intro h
  have hl := congrArg String.toList h
  rw [String.toList_append] at hl
  cases hl

/--
Exactly when no mapping that is kept merges a mapping with a merge key of its own, the tree of a
text has no merge key left.
-/
theorem parseYaml_mergeFree_iff (h : parseYaml path content = .ok tree) :
    ∃ value, load content = .ok value ∧ (tree.MergeFree ↔
      ∀ entries origins, value.Kept (.mapping entries) → Value.MergesFrom entries origins →
        ∀ source ∈ origins, ∀ e ∈ source, e.1.isMergeKey = false) := by
  obtain ⟨value, hl, hb⟩ := parseYaml_eq_ok_iff.mp h
  have hd := load_distinct hl
  refine ⟨value, hl, ?_⟩
  constructor
  · intro hf entries origins hk hm source hs e he
    obtain ⟨node, hn, hh⟩ := hk.exists_node hb
    obtain ⟨merged, found, -, -, rfl⟩ := Value.becomes_mapping_iff.mp hn
    rw [Bool.eq_false_iff]
    intro hk'
    obtain ⟨inner, hi⟩ := (hn.mergeKey_iff (hk.distinct hd) hm).mpr ⟨source, hs, e, he, hk'⟩
    exact hf _ inner hh hi
  · intro hn members inner hh hi
    obtain ⟨part, hk, hp⟩ := hb.holds_iff.mp hh
    rcases hp.object_inv with ⟨name, _, other, rfl, -, rfl⟩ | ⟨entries, rfl⟩
    · have hs := congrArg Prod.fst (List.mem_singleton.mp hi)
      exact absurd hs.symm (tagText_ne_merge name)
    · obtain ⟨merged, found, ho, -, -⟩ := Value.becomes_mapping_iff.mp hp
      obtain ⟨origins, -, hm, -⟩ := Value.mergeOwn_eq_ok ho
      obtain ⟨source, hs, e, he, hk'⟩ := (hp.mergeKey_iff (hk.distinct hd) hm).mp ⟨inner, hi⟩
      exact absurd hk' (by simp [hn entries origins hk hm source hs e he])

set_option maxRecDepth 100000 in
theorem parseYaml_chained : parseYaml "openapi.yaml" "b: &b\n  <<: {a: x}\nc:\n  <<: *b\n" =
    .ok (.object [("b", .object [("a", .string "x")]),
      ("c", .object [("<<", .object [("a", .string "x")])])]) := by
  cbv

/-- A mapping that merges a mapping which merges another keeps the merge key of the first. -/
theorem not_mergeFree_chained : ∃ tree,
    parseYaml "openapi.yaml" "b: &b\n  <<: {a: x}\nc:\n  <<: *b\n" = .ok tree ∧
      ¬ tree.MergeFree := by
  refine ⟨_, parseYaml_chained, fun h => ?_⟩
  have hc : ("c", Tree.object [("<<", .object [("a", .string "x")])]) ∈ [
      ("b", .object [("a", .string "x")]), ("c", .object [("<<", .object [("a", .string "x")])])] :=
    List.mem_cons_of_mem _ List.mem_cons_self
  exact h _ _ (.member hc .here) List.mem_cons_self

theorem parseYaml_mergeFree_iff_chained : ∃ value,
    load "b: &b\n  <<: {a: x}\nc:\n  <<: *b\n" = .ok value ∧
      ((Tree.object [("b", .object [("a", .string "x")]),
        ("c", .object [("<<", .object [("a", .string "x")])])]).MergeFree ↔
        ∀ entries origins, value.Kept (.mapping entries) → Value.MergesFrom entries origins →
          ∀ source ∈ origins, ∀ e ∈ source, e.1.isMergeKey = false) :=
  parseYaml_mergeFree_iff parseYaml_chained

end Yaml
end ApiPresence

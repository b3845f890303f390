import ApiPresence.Proofs.Yaml.Kept
import ApiPresence.Proofs.Yaml.KeyText
import ApiPresence.Proofs.Yaml.Writable

namespace ApiPresence

theorem Binary64.sameValue_comm (x y : Binary64) : x.sameValue y = y.sameValue x := by
  cases x <;> cases y <;> simp [sameValue] <;> grind

theorem Number.sameValue_comm (m n : Number) : m.sameValue n = n.sameValue m := by
  cases m <;> cases n <;> simp [sameValue, Bool.beq_comm, Binary64.sameValue_comm]

namespace Yaml

namespace Value

variable {entries own source merged : List (Value × Value)} {value resolved part : Value}

/-- Whether keys agree does not depend on their order when one of them has a text. -/
theorem same_comm {a : Value} (ha : a.keyText = .ok s) (b : Value) : a.same b = b.same a := by
  cases a with
  | null | sequence | mapping | tagged => simp [keyText] at ha
  | bool x => cases b <;> simp [same, Bool.beq_comm]
  | string t => cases b <;> simp [same, Bool.beq_comm]
  | number m => cases b <;> simp [same, Number.sameValue_comm]

theorem same_self {a : Value} (ha : a.keyText = .ok s) : a.same a = true := by
  rcases keyText_cases ha with rfl | ⟨x, rfl, -⟩ | ⟨n, rfl, hn, -⟩
  · simp [same]
  · simp [same]
  · cases hn <;> simp [same, Number.sameValue, Binary64.sameValue]

/-- Keys that do not agree, if both have texts. -/
def Apart (a b : Value) : Prop :=
  ∀ s t, a.keyText = .ok s → b.keyText = .ok t → a.same b = false

theorem Apart.symm {a b : Value} (h : Apart a b) : Apart b a := by
  intro s t hb ha
  rw [same_comm hb]
  exact h t s ha hb

/-- No two keys that have texts agree; their order does not matter. -/
def Scattered (entries : List (Value × Value)) : Prop := (entries.map Prod.fst).Pairwise Apart

theorem DistinctKeys.scattered (h : DistinctKeys entries) : Scattered entries :=
  List.pairwise_map.mpr (h.imp fun hs _ _ _ _ => hs)

theorem Scattered.perm (h : Scattered own) (hp : own.Perm entries) : Scattered entries :=
  ((hp.map Prod.fst).pairwise_iff Apart.symm).mp h

theorem Scattered.eraseP (h : Scattered entries) (p : Value × Value → Bool) :
    Scattered (entries.eraseP p) :=
  List.Pairwise.sublist (List.eraseP_sublist.map Prod.fst) h

theorem Scattered.addEntry (h : Scattered own) (x : Value × Value) :
    Scattered (addEntry own x) := by
  rw [Value.addEntry]
  split
  · exact h
  · next hk =>
    have hl : Lacks own x.1 := Classical.not_not.mp (mt hasKey_iff.mpr hk)
    rw [Scattered, List.map_append]
    refine List.pairwise_append.mpr ⟨h, List.pairwise_singleton _ _, ?_⟩
    intro a ha b hb s t _ _
    obtain ⟨e, he, rfl⟩ := List.mem_map.mp ha
    rw [List.mem_singleton.mp hb]
    exact hl e he

theorem Scattered.addEntries (h : Scattered own) (source : List (Value × Value)) :
    Scattered (addEntries own source) := by
  rw [Value.addEntries]
  induction source generalizing own with
  | nil => exact h
  | cons x rest ih => exact ih (h.addEntry x)

theorem Scattered.foldl_addEntries (h : Scattered own)
    (origins : List (List (Value × Value))) : Scattered (origins.foldl Value.addEntries own) := by
  induction origins generalizing own with
  | nil => exact h
  | cons source rest ih => exact ih (h.addEntries source)

/-- Following a merge key adds no key that agrees with one before it. -/
theorem mergeOwn_scattered (hd : DistinctKeys entries) (h : mergeOwn entries = .ok merged) :
    Scattered merged := by
  obtain ⟨origins, own, -, hp, rfl⟩ := mergeOwn_eq_ok h
  exact ((hd.scattered.eraseP _).perm hp.symm).foldl_addEntries origins

/-- How a value and what following its merge keys gives are alike, by the kind of the value. -/
inductive Resolves : Value → Value → Prop
  | scalar {value : Value} (hd : value.depth = 0) : Resolves value value
  | sequence {items done : List Value}
    (hf : List.Forall₂ (fun v w => v.resolve = .ok w) items done) :
    Resolves (.sequence items) (.sequence done)
  | mapping {entries merged done : List (Value × Value)} (hm : mergeOwn entries = .ok merged)
    (hf : List.Forall₂ (fun e f => e.2.resolve = .ok f.2 ∧ f.1 = e.1) merged done) :
    Resolves (.mapping entries) (.mapping done)
  | tagged {name : String} {inner done : Value} (hi : inner.resolve = .ok done) :
    Resolves (.tagged name inner) (.tagged name done)

theorem resolves_of_resolve (h : value.resolve = .ok resolved) : Resolves value resolved := by
  cases value with
  | null | bool | number | string =>
    rw [resolve, resolveWithin_of_depth_eq_zero rfl] at h
    cases h
    exact .scalar rfl
  | sequence items =>
    obtain ⟨done, hf, rfl⟩ := resolve_sequence_iff.mp h
    exact .sequence hf
  | mapping entries =>
    obtain ⟨merged, done, hm, hf, rfl⟩ := resolve_mapping_iff.mp h
    exact .mapping hm hf
  | tagged name inner =>
    obtain ⟨done, hi, rfl⟩ := resolve_tagged_iff.mp h
    exact .tagged hi

/-- The keys of no mapping in a merged value agree. -/
theorem Holds.scattered (hp : Holds resolved (.mapping entries)) (hd : value.Distinct)
    (hr : value.resolve = .ok resolved) : Scattered entries := by
  generalize he : Value.mapping entries = part at hp
  induction hp generalizing value with
  | whole =>
    subst he
    cases resolves_of_resolve hr with
    | scalar h => cases h
    | @mapping _ merged _ hm hf =>
      have hk : merged.map Prod.fst = entries.map Prod.fst := by
        rw [← List.forall₂_eq_eq_eq, List.forall₂_map_left_iff, List.forall₂_map_right_iff]
        exact hf.imp fun _ _ h => h.2.symm
      rw [Scattered, ← hk]
      exact mergeOwn_scattered hd.keys hm
  | item hi hp ih =>
    cases resolves_of_resolve hr with
    | scalar h => cases h
    | sequence hf =>
      obtain ⟨v, hv, hi⟩ := forall₂_mem_right hf hi
      exact ih (hd.element hv) hi he
  | entry hi hp ih =>
    cases resolves_of_resolve hr with
    | scalar h => cases h
    | mapping hm hf =>
      obtain ⟨e, hv, hi, -⟩ := forall₂_mem_right hf hi
      exact ih (mergeOwn_distinct hd hm hv) hi he
  | tagged hp ih =>
    cases resolves_of_resolve hr with
    | scalar h => cases h
    | tagged hi => exact ih hd.untagged hi he

/-- A string key that is spelled like the text of a key that is no string. -/
def Clashes (entries : List (Value × Value)) : Prop :=
  ∃ s, (∃ e ∈ entries, e.1 = .string s) ∧
    ∃ f ∈ entries, f.1 ≠ .string s ∧ f.1.keyText = .ok s

/--
The keys of a mapping have different texts exactly when no string is spelled like another key.
-/
theorem Scattered.nodup_iff (h : Scattered entries) (ht : ∀ e ∈ entries, ∃ s, e.1.keyText = .ok s) :
    (entries.map fun e => e.1.keyText).Nodup ↔ ¬ Clashes entries := by
  constructor
  · rintro hn ⟨s, ⟨e, he, hs⟩, f, hf, hne, hk⟩
    have hef := List.inj_on_of_nodup_map hn he hf (by rw [hs, hk, keyText])
    exact hne (hef ▸ hs)
  · intro hc
    refine List.pairwise_map.mpr (List.Pairwise.imp_of_mem ?_ (List.pairwise_map.mp h))
    intro e f he hf hs hk
    obtain ⟨s, hes⟩ := ht e he
    have hfs := hk ▸ hes
    have hsame : e.1 = f.1 := by
      refine eq_of_keyText hes hfs ⟨fun h => ?_, fun h => ?_⟩
      · exact Classical.byContradiction fun hn => hc ⟨s, ⟨e, he, h⟩, f, hf, hn, hfs⟩
      · exact Classical.byContradiction fun hn => hc ⟨s, ⟨f, hf, h⟩, e, he, hn, hes⟩
    have hself := hs s s hes hfs
    rw [hsame, same_self hfs] at hself
    cases hself

theorem toTree_mapping_eq_ok_iff : (mapping entries).toTree = .ok node ↔ ∃ members,
    List.Forall₂ (fun e m => e.1.keyText = .ok m.1 ∧ toTree e.2 = .ok m.2) entries members ∧
      node = .object (Tree.gather members) := by
  rw [toTree, bind_eq_ok_iff]
  exact exists_congr fun members => and_congr toEntries_eq_ok_iff ok_eq_ok_iff

theorem nodup_keyText_iff {members : List (String × Tree)} (hf : List.Forall₂
    (fun e m => e.1.keyText = .ok m.1 ∧ toTree e.2 = .ok m.2) entries members) :
    (members.map Prod.fst).Nodup ↔ (entries.map fun e => e.1.keyText).Nodup := by
  have hk : (entries.map fun e => e.1.keyText) = (members.map Prod.fst).map .ok := by
    rw [List.map_map, ← List.forall₂_eq_eq_eq, List.forall₂_map_left_iff,
      List.forall₂_map_right_iff]
    exact hf.imp fun _ _ h => h.1
  rw [hk, List.nodup_map_iff fun _ _ => Except.ok.inj]

/-- The object of a mapping is as large as the mapping unless a string is spelled like a key. -/
theorem Scattered.length_eq_iff (h : Scattered entries)
    (ht : (mapping entries).toTree = .ok (.object members)) :
    members.length = entries.length ↔ ¬ Clashes entries := by
  obtain ⟨found, hf, he⟩ := toTree_mapping_eq_ok_iff.mp ht
  cases he
  rw [hf.length_eq, Tree.length_gather_eq_iff, nodup_keyText_iff hf]
  refine h.nodup_iff fun e he => ?_
  obtain ⟨m, -, hk, -⟩ := forall₂_mem_left hf he
  exact ⟨m.1, hk⟩

theorem mem_keys_iff (ht : (mapping entries).toTree = .ok (.object members)) :
    s ∈ members.map Prod.fst ↔ ∃ e ∈ entries, e.1.keyText = .ok s := by
  obtain ⟨found, hf, he⟩ := toTree_mapping_eq_ok_iff.mp ht
  cases he
  rw [Tree.mem_keys_gather_iff]
  constructor
  · intro hs
    obtain ⟨m, hm, rfl⟩ := List.mem_map.mp hs
    obtain ⟨e, he, hk, -⟩ := forall₂_mem_right hf hm
    exact ⟨e, he, hk⟩
  · rintro ⟨e, he, hs⟩
    obtain ⟨m, hm, hk, -⟩ := forall₂_mem_left hf he
    rw [hs] at hk
    cases hk
    exact List.mem_map_of_mem hm

/-- Where all keys of a mapping have different texts, every part stays in the tree. -/
theorem Holds.holds_toTree (hp : Holds value part) (ht : value.toTree = .ok tree)
    (hn : part.toTree = .ok node)
    (hk : ∀ entries, value.Holds (.mapping entries) → (entries.map fun e => e.1.keyText).Nodup) :
    tree.Holds node := by
  induction hp generalizing tree with
  | whole =>
    rw [ht] at hn
    cases hn
    exact .here
  | item hi hp ih =>
    obtain ⟨trees, hts, ht⟩ := bind_eq_ok_iff.mp ht
    cases ht
    obtain ⟨t, hm, ht⟩ := forall₂_mem_left (toTrees_eq_ok_iff.mp hts) hi
    exact .item hm (ih ht hn fun entries h => hk entries (.item hi h))
  | entry he hp ih =>
    obtain ⟨members, hf, rfl⟩ := toTree_mapping_eq_ok_iff.mp ht
    obtain ⟨m, hm, -, ht⟩ := forall₂_mem_left hf he
    have hu := (nodup_keyText_iff hf).mpr (hk _ .whole)
    exact .member ((Tree.gather_perm hu).mem_iff.mpr hm)
      (ih ht hn fun entries h => hk entries (.entry he h))
  | tagged hp ih =>
    obtain ⟨inner, hi, ht⟩ := bind_eq_ok_iff.mp ht
    cases ht
    exact .member (List.mem_singleton_self _) (ih hi hn fun entries h => hk entries (.tagged h))

end Value

/--
A mapping of the merged value of a text becomes an object with the texts of its keys, of the same
size exactly when no string among them is spelled like another key. Where that is so for all
mappings, everything in the value stays in the tree.
-/
theorem parseYaml_keeps_entries_iff (h : parseYaml path content = .ok tree) :
    ∃ value resolved, load content = .ok value ∧ value.resolve = .ok resolved ∧
      (∀ entries, resolved.Holds (.mapping entries) → ∃ members,
        (Value.mapping entries).toTree = .ok (.object members) ∧
          (∀ s, s ∈ members.map Prod.fst ↔ ∃ e ∈ entries, e.1.keyText = .ok s) ∧
          (members.length = entries.length ↔ ¬ Value.Clashes entries)) ∧
      ((∀ entries, resolved.Holds (.mapping entries) → ¬ Value.Clashes entries) →
        ∀ part node, resolved.Holds part → part.toTree = .ok node → tree.Holds node) := by
  obtain ⟨value, hl, resolved, hr, ht⟩ := parseYaml_eq_ok_iff.mp h
  have hd := load_distinct hl
  have hw := Value.exists_toTree_iff.mp ⟨tree, ht⟩
  refine ⟨value, resolved, hl, hr, ?_, ?_⟩
  · intro entries hp
    obtain ⟨node, hn⟩ := hp.exists_toTree ht
    obtain ⟨members, -, rfl⟩ := Value.toTree_mapping_eq_ok_iff.mp hn
    exact ⟨_, hn, fun s => Value.mem_keys_iff hn, (hp.scattered hd hr).length_eq_iff hn⟩
  · intro hc part node hp hn
    refine hp.holds_toTree ht hn fun entries he => ?_
    rw [(he.scattered hd hr).nodup_iff fun e hm =>
      Value.exists_keyText_iff.mpr (hw entries he e hm)]
    exact hc entries he

/-- All mappings of the merged value of a text become objects of the same size. -/
def KeepsEntries (content : String) : Prop :=
  ∀ path tree value resolved entries members, parseYaml path content = .ok tree →
    load content = .ok value → value.resolve = .ok resolved → resolved.Holds (.mapping entries) →
      (Value.mapping entries).toTree = .ok (.object members) → members.length = entries.length

set_option maxRecDepth 100000 in
theorem load_spelledAlike : load "true: a\n'true': b\n" = .ok (.mapping [
    (.bool true, .string "a"), (.string "true", .string "b")]) := by
  cbv

theorem parseYaml_spelledAlike :
    parseYaml "openapi.yaml" "true: a\n'true': b\n" = .ok (.object [("true", .string "b")]) :=
  parseYaml_eq_ok_iff.mpr ⟨_, load_spelledAlike, _, rfl, rfl⟩

/-- A boolean and a string can be spelled alike. -/
theorem not_keepsEntries_spelledAlike : ¬ KeepsEntries "true: a\n'true': b\n" := by
  intro h
  have hl := h "openapi.yaml" _ _ _ _ _ parseYaml_spelledAlike load_spelledAlike rfl .whole rfl
  cases hl

theorem parseYaml_keeps_entries_iff_spelledAlike : ∃ value resolved,
    load "true: a\n'true': b\n" = .ok value ∧ value.resolve = .ok resolved ∧
      (∀ entries, resolved.Holds (.mapping entries) → ∃ members,
        (Value.mapping entries).toTree = .ok (.object members) ∧
          (∀ s, s ∈ members.map Prod.fst ↔ ∃ e ∈ entries, e.1.keyText = .ok s) ∧
          (members.length = entries.length ↔ ¬ Value.Clashes entries)) ∧
      ((∀ entries, resolved.Holds (.mapping entries) → ¬ Value.Clashes entries) →
        ∀ part node, resolved.Holds part → part.toTree = .ok node →
          (Tree.object [("true", .string "b")]).Holds node) :=
  parseYaml_keeps_entries_iff parseYaml_spelledAlike

end Yaml
end ApiPresence

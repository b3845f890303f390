import ApiPresence.Proofs.Yaml.Conversion

namespace ApiPresence.Yaml.Value

/-- A part of a value: reached through items, values of entries and tagged values, not keys. -/
inductive Holds : Value → Value → Prop where
  | whole : Holds value value
  | item (hi : item ∈ items) (hp : Holds item part) : Holds (.sequence items) part
  | entry (he : e ∈ entries) (hp : Holds e.2 part) : Holds (.mapping entries) part
  | tagged (hp : Holds value part) : Holds (.tagged name value) part

/-- A key without a text: nothing, a collection, a tagged value, or a float that is not finite. -/
inductive Unwritable : Value → Prop where
  | null : Unwritable .null
  | sequence : Unwritable (.sequence items)
  | mapping : Unwritable (.mapping entries)
  | tagged : Unwritable (.tagged name value)
  | infinite : Unwritable (.number (.float (.infinite negative)))
  | nan : Unwritable (.number (.float .nan))

/-- All keys of the mappings in a value have texts. -/
def Writable (value : Value) : Prop :=
  ∀ entries, value.Holds (.mapping entries) → ∀ e ∈ entries, ¬ e.1.Unwritable

theorem exists_keyText_iff {key : Value} : (∃ text, key.keyText = .ok text) ↔ ¬ key.Unwritable := by
  cases key with
  | null => exact iff_of_false (by simp [keyText]) (not_not_intro .null)
  | sequence => exact iff_of_false (by simp [keyText]) (not_not_intro .sequence)
  | mapping => exact iff_of_false (by simp [keyText]) (not_not_intro .mapping)
  | tagged => exact iff_of_false (by simp [keyText]) (not_not_intro .tagged)
  | bool value =>
    refine iff_of_true ?_ (by rintro ⟨⟩)
    cases value with
    | true => exact ⟨_, rfl⟩
    | false => exact ⟨_, rfl⟩
  | string s => exact iff_of_true ⟨s, rfl⟩ (by rintro ⟨⟩)
  | number n =>
    cases n with
    | whole value inRange => exact iff_of_true ⟨_, rfl⟩ (by rintro ⟨⟩)
    | float value =>
      cases value with
      | finite negative rank => exact iff_of_true ⟨_, rfl⟩ (by rintro ⟨⟩)
      | infinite => exact iff_of_false (by simp [keyText]) (not_not_intro .infinite)
      | nan => exact iff_of_false (by simp [keyText]) (not_not_intro .nan)

theorem Writable.element (h : Writable (.sequence items)) (hi : item ∈ items) : item.Writable :=
  fun entries hp => h entries (.item hi hp)

theorem Writable.entry (h : Writable (.mapping entries)) (he : e ∈ entries) : e.2.Writable :=
  fun inner hp => h inner (.entry he hp)

theorem Writable.key (h : Writable (.mapping entries)) (he : e ∈ entries) : ¬ e.1.Unwritable :=
  h entries .whole e he

theorem Writable.untagged (h : Writable (.tagged name value)) : value.Writable :=
  fun entries hp => h entries (.tagged hp)

mutual

theorem exists_toTree : (value : Value) → value.Writable → ∃ tree, value.toTree = .ok tree
  | .null, _ => ⟨_, rfl⟩
  | .bool _, _ => ⟨_, rfl⟩
  | .string _, _ => ⟨_, rfl⟩
  | .number n, _ => by
    cases n with
    | whole value inRange => exact ⟨_, rfl⟩
    | float value => cases value <;> exact ⟨_, rfl⟩
  | .sequence items, h => by
    obtain ⟨trees, ht⟩ := exists_toTrees items fun item hi => h.element hi
    exact ⟨_, bind_eq_ok_iff.mpr ⟨trees, ht, rfl⟩⟩
  | .mapping entries, h => by
    obtain ⟨members, hm⟩ := exists_toEntries entries (fun e he => h.key he) fun e he => h.entry he
    exact ⟨_, bind_eq_ok_iff.mpr ⟨members, hm, rfl⟩⟩
  | .tagged name value, h => by
    obtain ⟨tree, ht⟩ := exists_toTree value h.untagged
    exact ⟨_, bind_eq_ok_iff.mpr ⟨tree, ht, rfl⟩⟩

theorem exists_toTrees : (items : List Value) → (∀ item ∈ items, item.Writable) →
    ∃ trees, toTrees items = .ok trees
  | [], _ => ⟨[], rfl⟩
  | item :: rest, h => by
    rw [List.forall_mem_cons] at h
    obtain ⟨tree, ht⟩ := exists_toTree item h.1
    obtain ⟨trees, hr⟩ := exists_toTrees rest h.2
    exact ⟨tree :: trees, toTrees_eq_ok_iff.mpr (.cons ht (toTrees_eq_ok_iff.mp hr))⟩

theorem exists_toEntries : (entries : List (Value × Value)) →
    (∀ e ∈ entries, ¬ e.1.Unwritable) → (∀ e ∈ entries, e.2.Writable) →
      ∃ members, toEntries entries = .ok members
  | [], _, _ => ⟨[], rfl⟩
  | (key, value) :: rest, hk, h => by
    rw [List.forall_mem_cons] at hk h
    obtain ⟨text, hs⟩ := exists_keyText_iff.mpr hk.1
    obtain ⟨tree, ht⟩ := exists_toTree value h.1
    obtain ⟨members, hr⟩ := exists_toEntries rest hk.2 h.2
    exact ⟨(text, tree) :: members,
      toEntries_eq_ok_iff.mpr (.cons ⟨hs, ht⟩ (toEntries_eq_ok_iff.mp hr))⟩

end

/-- A part of a value that has a tree has one. -/
theorem Holds.exists_toTree (h : Holds value part) (ht : value.toTree = .ok tree) :
    ∃ node, part.toTree = .ok node := by
  induction h generalizing tree with
  | whole => exact ⟨tree, ht⟩
  | item hi hp ih =>
    obtain ⟨trees, ht, -⟩ := bind_eq_ok_iff.mp ht
    obtain ⟨t, -, ht⟩ := forall₂_mem_left (toTrees_eq_ok_iff.mp ht) hi
    exact ih ht
  | entry he hp ih =>
    obtain ⟨members, hm, -⟩ := bind_eq_ok_iff.mp ht
    obtain ⟨m, -, -, ht⟩ := forall₂_mem_left (toEntries_eq_ok_iff.mp hm) he
    exact ih ht
  | tagged hp ih =>
    obtain ⟨inner, ht, -⟩ := bind_eq_ok_iff.mp ht
    exact ih ht

/-- A value has a tree exactly when all its keys have texts. -/
theorem exists_toTree_iff : (∃ tree, toTree value = .ok tree) ↔ value.Writable := by
  constructor
  · rintro ⟨tree, ht⟩ entries hp e he
    obtain ⟨node, hn⟩ := hp.exists_toTree ht
    obtain ⟨members, hm, -⟩ := bind_eq_ok_iff.mp hn
    obtain ⟨m, -, hk, -⟩ := forall₂_mem_left (toEntries_eq_ok_iff.mp hm) he
    exact exists_keyText_iff.mp ⟨m.1, hk⟩
  · exact exists_toTree value

end ApiPresence.Yaml.Value

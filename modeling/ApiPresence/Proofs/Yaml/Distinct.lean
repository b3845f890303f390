import ApiPresence.Proofs.Basic
import ApiPresence.Yaml.Load

namespace ApiPresence.Yaml

namespace Value

/-- No entry has a key that agrees with this one. -/
def Lacks (entries : List (Value × Value)) (key : Value) : Prop :=
  ∀ e ∈ entries, e.1.same key = false

/-- No key agrees with one before it. -/
def DistinctKeys (entries : List (Value × Value)) : Prop :=
  entries.Pairwise fun e f => e.1.same f.1 = false

/-- All mappings inside a value have distinct keys, those inside keys apart. -/
inductive Distinct : Value → Prop where
  | null : Distinct null
  | bool : Distinct (bool x)
  | number : Distinct (number n)
  | string : Distinct (string s)
  | sequence (hi : ∀ item ∈ items, Distinct item) : Distinct (sequence items)
  | mapping (hk : DistinctKeys entries) (hv : ∀ e ∈ entries, Distinct e.2) :
      Distinct (mapping entries)
  | tagged (hv : Distinct value) : Distinct (tagged name value)

theorem Distinct.element (h : Distinct (.sequence items)) (hi : item ∈ items) : item.Distinct := by
  cases h with
  | sequence h => exact h item hi

theorem Distinct.keys (h : Distinct (.mapping entries)) : DistinctKeys entries := by
  cases h with
  | mapping hk => exact hk

theorem Distinct.entry (h : Distinct (.mapping entries)) (he : e ∈ entries) : e.2.Distinct := by
  cases h with
  | mapping _ hv => exact hv e he

theorem Distinct.untagged (h : Distinct (.tagged name value)) : value.Distinct := by
  cases h with
  | tagged hv => exact hv

theorem findEntry_eq_none_iff : findEntry key entries = none ↔ Lacks entries key := by
  simp [findEntry, Lacks]

end Value

namespace Document

theorem located_eq_ok_iff : located path mark result = .ok a ↔ result = .ok a :=
  mapError_eq_ok_iff

/-- What is read in so many steps has distinct keys. -/
structure ReadsDistinct (d : Document) (fuel : Nat) : Prop where
  value {path depth tagDone p v q} :
    d.readValue fuel path depth tagDone p = .ok (v, q) → v.Distinct
  items {path depth index p items q} :
    d.readItems fuel path depth index p = .ok (items, q) → ∀ item ∈ items, item.Distinct
  entries {path depth before p entries q} :
    d.readEntries fuel path depth before p = .ok (entries, q) →
      Value.DistinctKeys entries ∧ (∀ e ∈ entries, Value.Lacks before e.1) ∧
        ∀ e ∈ entries, e.2.Distinct

/-- A scalar or a collection, behind a tag or without one. -/
theorem readTagged_distinct {d : Document} (ih : d.ReadsDistinct fuel)
    {own : Except Error (Value × Progress)} {name : Option String}
    (ho : own = .ok (v, q) → v.Distinct)
    (h : (match name with
      | some name => do
        let (value, p) ← d.readValue fuel path depth true p
        .ok (Value.tagged (Tag.withoutBang name) value, p)
      | none => own) = .ok (v, q)) : v.Distinct := by
  cases name with
  | none => exact ho h
  | some name =>
    obtain ⟨⟨value, after⟩, hv, h⟩ := bind_eq_ok_iff.mp h
    cases h
    exact .tagged (ih.value hv)

theorem readValue_distinct {d : Document} (ih : d.ReadsDistinct fuel)
    (h : d.readValue (fuel + 1) path depth tagDone p = .ok (v, q)) : v.Distinct := by
  rw [readValue] at h
  obtain ⟨⟨node, mark⟩, hn, h⟩ := bind_eq_ok_iff.mp h
  have h := located_eq_ok_iff.mp h
  cases node with
  | aliasOf number =>
    obtain ⟨inner, hj, h⟩ := bind_eq_ok_iff.mp h
    obtain ⟨⟨value, after⟩, hv, h⟩ := bind_eq_ok_iff.mp h
    cases h
    exact ih.value hv
  | scalar tag text style =>
    refine readTagged_distinct ih (fun ho => ?_) h
    split at ho
    case h_1 | h_6 => cases ho
    all_goals
      cases ho
      constructor
  | sequenceStart tag =>
    refine readTagged_distinct ih (fun ho => ?_) h
    cases depth with
    | zero => cases ho
    | succ depth =>
      obtain ⟨⟨items, after⟩, hi, ho⟩ := bind_eq_ok_iff.mp ho
      cases ho
      exact .sequence (ih.items hi)
  | mappingStart tag =>
    refine readTagged_distinct ih (fun ho => ?_) h
    cases depth with
    | zero => cases ho
    | succ depth =>
      obtain ⟨⟨entries, after⟩, he, ho⟩ := bind_eq_ok_iff.mp ho
      cases ho
      obtain ⟨hp, -, hv⟩ := ih.entries he
      exact .mapping hp hv
  | void =>
    cases h
    exact .null
  | sequenceEnd | mappingEnd => cases h

theorem readItems_distinct {d : Document} (ih : d.ReadsDistinct fuel)
    (h : d.readItems (fuel + 1) path depth index p = .ok (items, q)) :
    ∀ item ∈ items, item.Distinct := by
  rw [readItems] at h
  obtain ⟨node, hn, h⟩ := bind_eq_ok_iff.mp h
  split at h
  · cases h
    exact List.forall_mem_nil _
  · cases h
    exact List.forall_mem_nil _
  · obtain ⟨⟨item, between⟩, hi, h⟩ := bind_eq_ok_iff.mp h
    obtain ⟨⟨rest, after⟩, hr, h⟩ := bind_eq_ok_iff.mp h
    cases h
    rw [List.forall_mem_cons]
    exact ⟨ih.value hi, ih.items hr⟩

theorem readEntries_distinct {d : Document} (ih : d.ReadsDistinct fuel)
    (h : d.readEntries (fuel + 1) path depth before p = .ok (entries, q)) :
    Value.DistinctKeys entries ∧ (∀ e ∈ entries, Value.Lacks before e.1) ∧
      ∀ e ∈ entries, e.2.Distinct := by
  rw [readEntries] at h
  obtain ⟨node, hn, h⟩ := bind_eq_ok_iff.mp h
  split at h
  · cases h
    exact ⟨.nil, List.forall_mem_nil _, List.forall_mem_nil _⟩
  · cases h
    exact ⟨.nil, List.forall_mem_nil _, List.forall_mem_nil _⟩
  · obtain ⟨⟨key, between⟩, hk, h⟩ := bind_eq_ok_iff.mp h
    cases hf : Value.findEntry key before with
    | some known => simp [hf] at h
    | none =>
      simp only [hf] at h
      obtain ⟨⟨value, behind⟩, hv, h⟩ := bind_eq_ok_iff.mp h
      obtain ⟨⟨rest, after⟩, hr, h⟩ := bind_eq_ok_iff.mp h
      cases h
      obtain ⟨hp, hl, hd⟩ := ih.entries hr
      have hk : ∀ e ∈ rest, key.same e.1 = false := by
        intro e he
        exact hl e he _ (List.mem_append_right before List.mem_cons_self)
      have hb : ∀ e ∈ rest, Value.Lacks before e.1 := by
        intro e he f hf
        exact hl e he f (List.mem_append_left _ hf)
      have hn := Value.findEntry_eq_none_iff.mp hf
      refine ⟨List.pairwise_cons.mpr ⟨hk, hp⟩, ?_, ?_⟩
      · exact List.forall_mem_cons.mpr ⟨hn, hb⟩
      · exact List.forall_mem_cons.mpr ⟨ih.value hv, hd⟩

theorem readsDistinct (d : Document) (fuel : Nat) : d.ReadsDistinct fuel := by
  induction fuel with
  | zero =>
    constructor
    · intro path depth tagDone p v q h
      rw [readValue] at h
      cases h
    · intro path depth index p items q h
      rw [readItems] at h
      cases h
    · intro path depth before p entries q h
      rw [readEntries] at h
      cases h
  | succ fuel ih => exact ⟨readValue_distinct ih, readItems_distinct ih, readEntries_distinct ih⟩

end Document

/-- No mapping of a text that is read has a key twice. -/
theorem load_distinct (h : load text = .ok value) : value.Distinct := by
  rw [load, Document.toValue, Document.readAll] at h
  obtain ⟨⟨found, after⟩, hr, h⟩ := bind_eq_ok_iff.mp h
  have hd := ((Document.ofText text).readsDistinct _).value hr
  cases hf : (Document.ofText text).fault with
  | some fault => simp [hf] at h
  | none =>
    simp only [hf] at h
    split at h
    · cases h
    · cases h
      exact hd

end ApiPresence.Yaml

import ApiPresence.Proofs.Lookup
import Mathlib.Data.List.Dedup
import Mathlib.Data.List.Induction
import Mathlib.Data.String.Basic

namespace ApiPresence.Tree

variable {members entries : List (String × Tree)}

theorem mem_of_mem_setMember (h : m ∈ setMember key value members) :
    m = (key, value) ∨ m ∈ members := by
  induction members with
  | nil => exact .inl (List.mem_singleton.mp h)
  | cons member rest ih =>
    obtain ⟨k, v⟩ := member
    rw [setMember] at h
    split at h
    · exact (List.mem_cons.mp h).imp_right (List.mem_cons_of_mem _)
    · split at h
      · exact List.mem_cons.mp h
      · rcases List.mem_cons.mp h with rfl | h
        · exact .inr List.mem_cons_self
        · exact (ih h).imp_right (List.mem_cons_of_mem _)

/-- Setting a member keeps the keys in their order. -/
theorem setMember_sorted (h : (members.map Prod.fst).Pairwise (· < ·)) :
    ((setMember key value members).map Prod.fst).Pairwise (· < ·) := by
  induction members with
  | nil => exact List.pairwise_singleton _ _
  | cons member rest ih =>
    obtain ⟨k, v⟩ := member
    obtain ⟨hk, hr⟩ := List.pairwise_cons.mp h
    rw [setMember]
    split
    · next he =>
      subst he
      exact h
    · next he =>
      split
      · next hl =>
        refine List.pairwise_cons.mpr ⟨?_, h⟩
        intro s hs
        rcases List.mem_cons.mp hs with rfl | hs
        · exact hl
        · exact hl.trans (hk s hs)
      · next hl =>
        refine List.pairwise_cons.mpr ⟨?_, ih hr⟩
        intro s hs
        obtain ⟨m, hm, rfl⟩ := List.mem_map.mp hs
        rcases mem_of_mem_setMember hm with rfl | hm
        · exact lt_of_le_of_ne (not_lt.mp hl) (Ne.symm he)
        · exact hk _ (List.mem_map_of_mem hm)

/-- Of ordered members exactly the one of the key is replaced. -/
theorem mem_setMember_iff (h : (members.map Prod.fst).Pairwise (· < ·)) :
    (s, t) ∈ setMember key value members ↔
      s = key ∧ t = value ∨ s ≠ key ∧ (s, t) ∈ members := by
  induction members with
  | nil => simp [setMember]
  | cons member rest ih =>
    obtain ⟨k, v⟩ := member
    obtain ⟨hk, hr⟩ := List.pairwise_cons.mp h
    have hn (hm : (s, t) ∈ rest) : k < s := hk s (List.mem_map_of_mem (f := Prod.fst) hm)
    rw [setMember]
    split
    · next he =>
      subst he
      have hs : (s, t) ∈ rest → s ≠ key := fun hm => (hn hm).ne'
      simp only [List.mem_cons, Prod.mk.injEq]
      grind
    · next he =>
      split
      · next hl =>
        have hs : (s, t) ∈ rest → s ≠ key := fun hm => (hl.trans (hn hm)).ne'
        have hk' : s = k → s ≠ key := fun hs => hs ▸ Ne.symm he
        simp only [List.mem_cons, Prod.mk.injEq]
        grind
      · have hk' : s = k → s ≠ key := fun hs => hs ▸ Ne.symm he
        rw [List.mem_cons, ih hr]
        simp only [List.mem_cons, Prod.mk.injEq]
        grind

/-- Among ordered members a key has one value, which is the one that is found. -/
theorem member?_eq_some_iff (h : (members.map Prod.fst).Pairwise (· < ·)) :
    member? key members = some value ↔ (key, value) ∈ members := by
  constructor
  · intro hm
    obtain ⟨before, after, rfl, -⟩ := member?_eq_some hm
    exact List.mem_append_right before List.mem_cons_self
  · intro hm
    obtain ⟨before, after, rfl⟩ := List.append_of_mem hm
    rw [List.map_append, List.map_cons, List.pairwise_append] at h
    obtain ⟨-, -, hb⟩ := h
    exact member?_append_cons fun hk => lt_irrefl key (hb key hk key List.mem_cons_self)

/-- The last of some entries that has a key. -/
def LastOf (entries : List (String × Tree)) (key : String) (value : Tree) : Prop :=
  ∃ before after, entries = before ++ (key, value) :: after ∧ key ∉ after.map Prod.fst

theorem lastOf_concat_iff : LastOf (entries ++ [(k, v)]) s t ↔
    s = k ∧ t = v ∨ s ≠ k ∧ LastOf entries s t := by
  constructor
  · rintro ⟨before, after, he, hn⟩
    obtain rfl | ⟨init, last, rfl⟩ := List.eq_nil_or_concat after
    · obtain ⟨-, hl⟩ := List.append_inj' he rfl
      cases hl
      exact .inl ⟨rfl, rfl⟩
    · rw [List.concat_eq_append, ← List.cons_append, ← List.append_assoc] at he
      obtain ⟨rfl, hl⟩ := List.append_inj' he rfl
      cases hl
      simp only [List.concat_eq_append, List.map_append, List.mem_append, not_or] at hn
      exact .inr ⟨by simpa using hn.2, before, init, rfl, hn.1⟩
  · rintro (⟨rfl, rfl⟩ | ⟨hs, before, after, rfl, hn⟩)
    · exact ⟨entries, [], rfl, List.not_mem_nil⟩
    · refine ⟨before, after ++ [(k, v)], by simp, ?_⟩
      rw [List.map_append, List.mem_append, not_or]
      exact ⟨hn, by simpa using hs⟩

theorem exists_lastOf_iff : (∃ value, LastOf entries key value) ↔ key ∈ entries.map Prod.fst := by
  constructor
  · rintro ⟨value, before, after, rfl, -⟩
    exact List.mem_map_of_mem (f := Prod.fst) (List.mem_append_right before List.mem_cons_self)
  · intro h
    induction entries with
    | nil => cases h
    | cons e rest ih =>
      by_cases hr : key ∈ rest.map Prod.fst
      · obtain ⟨value, before, after, he, hn⟩ := ih hr
        exact ⟨value, e :: before, after, by rw [he]; rfl, hn⟩
      · rw [List.map_cons, List.mem_cons, or_iff_left hr] at h
        exact ⟨e.2, [], rest, by rw [h]; rfl, hr⟩

/-- The members of the object of some entries. -/
def gather (entries : List (String × Tree)) : List (String × Tree) :=
  entries.foldl (fun members (k, v) => setMember k v members) []

theorem gather_concat (entries : List (String × Tree)) (k : String) (v : Tree) :
    gather (entries ++ [(k, v)]) = setMember k v (gather entries) := by
  rw [gather, List.foldl_append]
  rfl

theorem gather_sorted (entries : List (String × Tree)) :
    ((gather entries).map Prod.fst).Pairwise (· < ·) := by
  induction entries using List.reverseRecOn with
  | nil => exact .nil
  | append_singleton entries e ih =>
    rw [gather_concat]
    exact setMember_sorted ih

/-- An object holds the last entry of every key. -/
theorem mem_gather_iff : (s, t) ∈ gather entries ↔ LastOf entries s t := by
  induction entries using List.reverseRecOn with
  | nil => simp [gather, LastOf]
  | append_singleton entries e ih =>
    rw [gather_concat, mem_setMember_iff (gather_sorted entries), lastOf_concat_iff, ih]

theorem mem_keys_gather_iff : key ∈ (gather entries).map Prod.fst ↔ key ∈ entries.map Prod.fst := by
  constructor
  · intro h
    obtain ⟨m, hm, rfl⟩ := List.mem_map.mp h
    exact exists_lastOf_iff.mp ⟨m.2, mem_gather_iff.mp hm⟩
  · intro h
    obtain ⟨value, hl⟩ := exists_lastOf_iff.mpr h
    exact List.mem_map_of_mem (f := Prod.fst) (mem_gather_iff.mpr hl)

theorem gather_nodup (entries : List (String × Tree)) : ((gather entries).map Prod.fst).Nodup :=
  (gather_sorted entries).imp LT.lt.ne

/-- An object of some entries has a member for each different key of them. -/
theorem length_gather (entries : List (String × Tree)) :
    (gather entries).length = (entries.map Prod.fst).dedup.length := by
  have hp : ((gather entries).map Prod.fst).Perm (entries.map Prod.fst).dedup := by
    rw [List.perm_ext_iff_of_nodup (gather_nodup entries) (List.nodup_dedup _)]
    intro key
    rw [List.mem_dedup, mem_keys_gather_iff]
  rw [← hp.length_eq, List.length_map]

theorem length_gather_eq_iff :
    (gather entries).length = entries.length ↔ (entries.map Prod.fst).Nodup := by
  rw [length_gather, ← List.dedup_eq_self]
  constructor
  · intro h
    exact (List.dedup_sublist _).eq_of_length (by rw [h, List.length_map])
  · intro h
    rw [h, List.length_map]

/-- Entries with different keys are all members of their object. -/
theorem gather_perm (hn : (entries.map Prod.fst).Nodup) : (gather entries).Perm entries := by
  rw [List.perm_ext_iff_of_nodup (gather_nodup entries).of_map hn.of_map]
  rintro ⟨key, value⟩
  rw [mem_gather_iff]
  constructor
  · rintro ⟨before, after, rfl, -⟩
    exact List.mem_append_right before List.mem_cons_self
  · intro hm
    obtain ⟨before, after, rfl⟩ := List.append_of_mem hm
    rw [List.map_append, List.map_cons, List.nodup_append] at hn
    exact ⟨before, after, rfl, (List.nodup_cons.mp hn.2.1).1⟩

/-- Of members with different keys the order does not matter. -/
theorem member?_of_perm (hp : members.Perm entries) (hn : (entries.map Prod.fst).Nodup) :
    ∀ m ∈ entries, member? m.1 members = some m.2 := by
  rintro ⟨key, value⟩ hm
  obtain ⟨before, after, rfl⟩ := List.append_of_mem (hp.mem_iff.mpr hm)
  have hk := (hp.map Prod.fst).nodup_iff.mpr hn
  rw [List.map_append, List.map_cons, List.nodup_append] at hk
  exact member?_append_cons fun h => hk.2.2 key h key List.mem_cons_self rfl

end ApiPresence.Tree

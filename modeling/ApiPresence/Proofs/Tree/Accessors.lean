import ApiPresence.Proofs.Tree.Alter
import ApiPresence.Proofs.Validation.Reads
import Mathlib.Data.Set.Card

namespace ApiPresence.Tree

variable {document : Tree} {place : List String}

/-- Whether a mapping, a sequence and a scalar stand at a place. -/
def kindsAt (document : Tree) (place : List String) : List Bool :=
  [(document.mappingAt place).isSome, (document.sequenceAt place).isSome,
    (document.scalarAt place).isSome]

/-- What a node is, in the same order. -/
def kinds (node : Tree) : List Bool :=
  match node with
  | .null => [false, false, false]
  | .object _ => [true, false, false]
  | .array _ => [false, true, false]
  | .bool _ | .number _ | .string _ => [false, false, true]

theorem kindsAt_eq (document : Tree) (place : List String) :
    document.kindsAt place = ((document.lookup place).getD .null).kinds := by
  rw [kindsAt, mappingAt, sequenceAt, scalarAt]
  cases document.lookup place with
  | none => rfl
  | some node => cases node <;> rfl

theorem count_kinds_le (node : Tree) : node.kinds.count true ≤ 1 := by
  cases node <;> exact Nat.le_of_ble_eq_true rfl

theorem count_kinds_eq_zero_iff {node : Tree} : node.kinds.count true = 0 ↔ node = .null := by
  cases node <;> simp [kinds]

theorem getD_null_eq_null_iff {found : Option Tree} :
    found.getD .null = .null ↔ found = none ∨ found = some .null := by
  cases found <;> simp

/-- A string that is not empty is the scalar at its place. -/
theorem scalarAt_of_stringAt_ne (h : document.stringAt place ≠ "") :
    document.scalarAt place = some (.string (document.stringAt place)) := by
  rw [stringAt] at h ⊢
  split at h
  · next s hs => rw [scalarAt, hs]; rfl
  · exact absurd rfl h

/-- There is a node one key further exactly when there is a mapping with that key. -/
theorem hasKeyAt_iff_exists_lookup : document.hasKeyAt place key = true ↔
    ∃ node, document.lookup (place ++ [key]) = some node := by
  rw [hasKeyAt_iff, lookup_append]
  constructor
  · rintro ⟨members, hr, hk⟩
    obtain ⟨node, hn⟩ := exists_member?_of_mem hk
    exact ⟨node, by simp [lookup_eq_some_iff.mpr hr, lookup, get?, hn]⟩
  · rintro ⟨node, hn⟩
    obtain ⟨parent, hp, hl⟩ := Option.bind_eq_some_iff.mp hn
    obtain ⟨members, child, rfl, hm, -⟩ := lookup_cons_eq_some hl
    obtain ⟨before, after, rfl, -⟩ := member?_eq_some hm
    exact ⟨_, lookup_eq_some_iff.mp hp, by simp⟩

/-- A mapping is as long as there are keys that it has. -/
theorem Ordered.encard_hasKeyAt (h : document.Ordered) (place : List String) :
    {key | document.hasKeyAt place key = true}.encard = document.mappingLenAt place := by
  have hs : {key | document.hasKeyAt place key = true} = (document.keysAt place).toFinset := by
    ext key
    simp [hasKeyAt_eq]
  rw [hs, Set.encard_coe_eq_coe_finsetCard, List.toFinset_card_of_nodup (h.nodup_keysAt place),
    mappingLenAt_eq]

/--
What is told of a place is told of one node: the one that the segments lead to, in parts or at once.
Its keys are those that lead further, and a mapping of different keys is as long as they are many.
It is a mapping, a sequence or a scalar, or none of them when it is null or not there; and only a
scalar is told as a string.
-/
theorem accessors_tell_one_node (document : Tree) (place lower : List String) (key : String) :
    document.lookup (place ++ lower) = (document.lookup place).bind (·.lookup lower) ∧
    (document.hasKeyAt place key = true ↔
      ∃ node, document.lookup (place ++ [key]) = some node) ∧
    (document.Ordered →
      {key | document.hasKeyAt place key = true}.encard = document.mappingLenAt place) ∧
    (document.kindsAt place).count true ≤ 1 ∧
    ((document.kindsAt place).count true = 0 ↔
      document.lookup place = none ∨ document.lookup place = some .null) ∧
    (document.stringAt place ≠ "" →
      document.scalarAt place = some (.string (document.stringAt place))) := by
  have hz : (document.kindsAt place).count true = 0 ↔
      document.lookup place = none ∨ document.lookup place = some .null := by
    rw [kindsAt_eq, count_kinds_eq_zero_iff, getD_null_eq_null_iff]
  have hk : (document.kindsAt place).count true ≤ 1 := by
    rw [kindsAt_eq]
    exact count_kinds_le _
  exact ⟨lookup_append document place lower, hasKeyAt_iff_exists_lookup,
    fun h => h.encard_hasKeyAt place, hk, hz, scalarAt_of_stringAt_ne⟩

/-- A null that is a key's value, in an object whose other key leads through a string. -/
theorem accessors_tell_one_node_null :
    let d : Tree := .object [("a", .object [("x", .null), ("y", .string "s")])]
    d.Ordered ∧ {key | d.hasKeyAt ["a"] key = true}.encard = 2 ∧
      d.hasKeyAt ["a"] "x" = true ∧ d.kindsAt ["a", "x"] = [false, false, false] ∧
      d.stringAt ["a", "y"] ≠ "" ∧ d.scalarAt ["a", "y"] = some (.string "s") ∧
      d.lookup ["a", "y", "z"] = none := by
  intro d
  have hd : d.Ordered := by
    simp only [d, Ordered, OrderedMembers]
    decide +kernel
  have hs : d.stringAt ["a", "y"] ≠ "" := by decide
  obtain ⟨-, -, hl, -⟩ := accessors_tell_one_node d ["a"] [] ""
  obtain ⟨-, -, -, -, -, hy⟩ := accessors_tell_one_node d ["a", "y"] [] ""
  exact ⟨hd, hl hd, by decide, by decide, hs, hy hs, by decide⟩

end ApiPresence.Tree

import ApiPresence.Proofs.Validation.Reads
import Mathlib.Data.List.Perm.Subperm

namespace ApiPresence

namespace Tree

/--
A document may become another when what is no object becomes anything, and an object keeps its keys,
with values that may become those that it then has.
-/
inductive GrowsTo : (d d' : Tree) → Prop where
  | shapeless (h : ∀ members, d ≠ .object members) : GrowsTo d d'
  | object (hk : members.map Prod.fst ⊆ members'.map Prod.fst)
      (hv : ∀ key value value', member? key members = some value →
        member? key members' = some value' → GrowsTo value value') :
      GrowsTo (.object members) (.object members')

variable {d d' : Tree}

namespace GrowsTo

/-- An object is found again where it was, and has grown as well. -/
theorem reaches (h : d.GrowsTo d') (hr : d.Reaches place (.object members)) :
    ∃ members', d'.Reaches place (.object members') ∧
      members.map Prod.fst ⊆ members'.map Prod.fst := by
  induction place generalizing d d' with
  | nil =>
    cases hr
    cases h with
    | shapeless hn => exact absurd rfl (hn members)
    | object hk hv => exact ⟨_, .here, hk⟩
  | cons key place ih =>
    obtain ⟨outer, child, rfl, hc, hl⟩ := lookup_cons_eq_some (lookup_eq_some_iff.mpr hr)
    cases h with
    | shapeless hn => exact absurd rfl (hn outer)
    | object hk hv =>
      obtain ⟨before, after, rfl, -⟩ := member?_eq_some hc
      have hm : key ∈ (before ++ (key, child) :: after).map Prod.fst := by simp
      obtain ⟨child', hc'⟩ := exists_member?_of_mem (hk hm)
      obtain ⟨members', hr', hs⟩ := ih (hv key child child' hc hc') (lookup_eq_some_iff.mp hl)
      obtain ⟨before', after', rfl, hf⟩ := member?_eq_some hc'
      exact ⟨members', .inside hf hr', hs⟩

theorem defines (h : d.GrowsTo d') (hd : d.Defines place key) : d'.Defines place key := by
  obtain ⟨members, hr, hm⟩ := hd
  obtain ⟨members', hr', hs⟩ := h.reaches hr
  exact ⟨members', hr', hs hm⟩

/-- Only the first document needs different keys in its objects. -/
theorem mappingLenAt_le (h : d.GrowsTo d') (hd : d.Ordered) (place : List String) :
    d.mappingLenAt place ≤ d'.mappingLenAt place := by
  rw [mappingLenAt_eq, mappingLenAt_eq]
  apply (List.subperm_of_subset (hd.nodup_keysAt place) ?_).length_le
  intro key hk
  rw [mem_keysAt_iff] at hk ⊢
  exact h.defines hk

theorem check_present (h : d.GrowsTo d') {x : Expectation} (hx : (x.check d).status = .present) :
    x.check d' = x.check d := by
  have hx' : (x.check d').status = .present := by
    rw [x.check_present_iff] at hx ⊢
    exact h.defines hx
  rw [Expectation.check, Expectation.check, Check.mk.injEq]
  exact ⟨rfl, rfl, hx'.trans hx.symm⟩

end GrowsTo
end Tree

/--
A document that grows loses nothing in its report: what is present stays present in its position, no
count of keys or of present checks goes down, and a complete report stays complete.
-/
theorem growth_keeps_presence (e : ExpectationSet) (hd : d.Ordered) (h : d.GrowsTo d') :
    (∀ (i : Nat) (c : Check), (validate e d).checks[i]? = some c → c.status = .present →
      (validate e d').checks[i]? = some c) ∧
    (validate e d).presentCount ≤ (validate e d').presentCount ∧
    (validate e d).summary.pathCount ≤ (validate e d').summary.pathCount ∧
    (validate e d).summary.schemaCount ≤ (validate e d').summary.schemaCount ∧
    (validate e d').missingCount ≤ (validate e d).missingCount ∧
    ((validate e d).isComplete = true → (validate e d').isComplete = true) := by
  have hp : (validate e d).presentCount ≤ (validate e d').presentCount := by
    rw [Report.presentCount, Report.presentCount, validate_checks, validate_checks,
      List.countP_map, List.countP_map]
    apply List.countP_mono_left
    intro x _ hx
    have hs := Status.isPresent_eq_true_iff.mp hx
    rw [Function.comp_apply, h.check_present hs]
    exact hx
  refine ⟨?_, hp, h.mappingLenAt_le hd _, h.mappingLenAt_le hd _, ?_, ?_⟩
  · intro i c hc hs
    rw [validate_checks, List.getElem?_map, Option.map_eq_some_iff] at hc ⊢
    obtain ⟨x, hx, rfl⟩ := hc
    exact ⟨x, hx, h.check_present hs⟩
  · have hl : (validate e d').checks.length = (validate e d).checks.length := by
      rw [validate_checks, validate_checks, List.length_map, List.length_map]
    rw [Report.missingCount, Report.missingCount, hl]
    exact Nat.sub_le_sub_left hp _
  · simp only [Report.isComplete_iff, validate_checks, List.forall_mem_map]
    intro hc x hx
    rw [h.check_present (hc x hx)]
    exact hc x hx

/-- Null becomes an object, and a bool under a checked key a sequence. -/
theorem growth_keeps_presence_reshaped :
    let e : ExpectationSet := ⟨["/b", "/a"], ["A"], "k"⟩
    let d : Tree := .object [("components", .null), ("paths", .object [("/a", .bool true)])]
    let d' : Tree := .object [("components", .object [("schemas", .object [("A", .null)])]),
      ("info", .null), ("paths", .object [("/a", .array []), ("/b", .null)])]
    d.Ordered ∧ d.GrowsTo d' ∧ (validate e d).checks[1]? = some ⟨.path, "/a", .present⟩ ∧
      (validate e d').checks[1]? = some ⟨.path, "/a", .present⟩ ∧
      (validate e d').missingCount ≤ (validate e d).missingCount := by
  intro e d d'
  have hd : d.Ordered := by
    simp only [d, Tree.Ordered, Tree.OrderedMembers]
    decide +kernel
  have hp : (Tree.object [("/a", .bool true)]).GrowsTo
      (.object [("/a", .array []), ("/b", .null)]) := by
    apply Tree.GrowsTo.object (by decide)
    intro key value value' h h'
    obtain ⟨-, rfl⟩ : key = "/a" ∧ value = .bool true := by
      simpa [Tree.member?, eq_comm] using h
    exact .shapeless (by simp)
  have hg : d.GrowsTo d' := by
    apply Tree.GrowsTo.object (by decide)
    intro key value value' h h'
    simp only [Tree.member?] at h
    split at h
    · cases h
      exact .shapeless (by simp)
    · split at h
      · next he =>
        subst he
        cases h
        obtain rfl : value' = .object [("/a", .array []), ("/b", .null)] := by
          simpa [Tree.member?, eq_comm] using h'
        exact hp
      · cases h
  have hc : (validate e d).checks[1]? = some ⟨.path, "/a", .present⟩ := by decide
  obtain ⟨hk, -, -, -, hm, -⟩ := growth_keeps_presence e hd hg
  exact ⟨hd, hg, hc, hk 1 _ hc rfl, hm⟩

end ApiPresence

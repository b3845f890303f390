import ApiPresence.Proofs.Tree.Loaded
import ApiPresence.Proofs.Validation.Reads
import Mathlib.Data.List.Perm.Subperm

namespace ApiPresence

variable {d : Tree} {place ids keys : List String}

/-- How many checks of a category found their key. -/
def Report.presentIn (r : Report) (category : Category) : Nat :=
  (r.checksIn category).countP (·.status.isPresent)

/-- The checks of a category agree with the number of keys that a document has for it. -/
structure Report.AgreesOn (r : Report) (d : Tree) (category : Category) (place ids : List String)
    (count : Nat) : Prop where
  le : r.presentIn category ≤ count
  eq_iff : r.presentIn category = count ↔ ∀ key, d.Defines place key → key ∈ ids
  missing_of_zero : count = 0 → ∀ c ∈ r.checksIn category, c.status = .missing
  le_of_complete : r.isComplete = true → ids.length ≤ count

theorem subperm_filter_mem (hn : ids.Nodup) : (ids.filter (· ∈ keys)).Subperm keys := by
  apply List.subperm_of_subset (hn.filter _)
  intro id hi
  exact of_decide_eq_true (List.mem_filter.mp hi).2

theorem countP_mem_eq_iff (hn : ids.Nodup) (hk : keys.Nodup) :
    ids.countP (· ∈ keys) = keys.length ↔ ∀ key ∈ keys, key ∈ ids := by
  rw [List.countP_eq_length_filter]
  constructor
  · intro h key hm
    have hp := (subperm_filter_mem hn).perm_of_length_le h.ge
    exact (List.mem_filter.mp (hp.mem_iff.mpr hm)).1
  · intro h
    have hs : keys.Subperm (ids.filter (· ∈ keys)) := by
      apply List.subperm_of_subset hk
      intro key hm
      exact List.mem_filter.mpr ⟨h key hm, decide_eq_true hm⟩
    exact Nat.le_antisymm (subperm_filter_mem hn).length_le hs.length_le

theorem checksIn_eq (e : ExpectationSet) (d : Tree) (category : Category) :
    (validate e d).checksIn category =
      (e.toList.filter (·.category = category)).map (·.check d) := by
  rw [Report.checksIn, validate_checks, List.filter_map]
  rfl

theorem filter_expectAll (category other : Category) (place ids : List String) :
    (expectAll category place ids).filter (·.category = other) =
      if category = other then expectAll category place ids else [] := by
  by_cases hc : category = other <;> simp [expectAll, List.filter_map, Function.comp_def, hc]

/-- Different keys that are expected of a category are found at different keys of the object. -/
theorem validate_agreesOn {e : ExpectationSet} (hd : d.Ordered) (hn : ids.Nodup)
    (hf : e.toList.filter (·.category = category) = expectAll category place ids) :
    (validate e d).AgreesOn d category place ids (d.mappingLenAt place) := by
  have hc := checksIn_eq e d category
  rw [hf, expectAll, List.map_map] at hc
  have hp : (validate e d).presentIn category = ids.countP (· ∈ d.keysAt place) := by
    rw [Report.presentIn, hc, List.countP_map]
    apply List.countP_congr
    intro id _
    simp only [Function.comp_apply, Expectation.check_isPresent, Tree.mem_keysAt_iff]
  have hle : (validate e d).presentIn category ≤ (d.keysAt place).length := by
    rw [hp, List.countP_eq_length_filter]
    exact (subperm_filter_mem hn).length_le
  rw [Tree.mappingLenAt_eq]
  refine ⟨hle, ?_, ?_, ?_⟩
  · rw [hp, countP_mem_eq_iff hn (hd.nodup_keysAt place)]
    simp only [Tree.mem_keysAt_iff]
  · intro hz c hm
    have h0 : (validate e d).presentIn category = 0 := Nat.le_zero.mp (hz ▸ hle)
    rw [← Status.ne_present_iff, ne_eq, ← Status.isPresent_eq_true_iff]
    exact List.countP_eq_zero.mp h0 c hm
  · intro hcomplete
    have hl : (validate e d).presentIn category = ((validate e d).checksIn category).length := by
      rw [Report.presentIn, List.countP_eq_length]
      intro c hm
      rw [Status.isPresent_eq_true_iff]
      exact Report.isComplete_iff.mp hcomplete c (List.mem_of_mem_filter hm)
    rw [hc, List.length_map] at hl
    exact hl ▸ hle

/--
The counts of keys in a report and its checks tell the same: no more checks are present than there
are keys, and as many only when all keys are expected.
-/
theorem counts_agree_with_checks (e : ExpectationSet) (hd : d.Ordered) (hp : e.paths.Nodup)
    (hs : e.schemas.Nodup) :
    (validate e d).AgreesOn d .path ["paths"] e.paths (validate e d).summary.pathCount ∧
      (validate e d).AgreesOn d .schema ["components", "schemas"] e.schemas
        (validate e d).summary.schemaCount := by
  constructor
  · apply validate_agreesOn hd hp
    simp [e.toList_eq, filter_expectAll]
  · apply validate_agreesOn hd hs
    simp [e.toList_eq, filter_expectAll]

/-- A path that nobody expects makes the counts differ, and schemas that are all expected agree. -/
theorem counts_agree_with_checks_unexpected :
    let e : ExpectationSet := ⟨["/a", "/b"], ["B", "A"], "k"⟩
    let d : Tree := .object [("components", .object [("schemas", .object [("A", .null)])]),
      ("paths", .object [("/a", .null), ("/c", .null)])]
    d.Ordered ∧ e.paths.Nodup ∧ e.schemas.Nodup ∧
      (validate e d).presentIn .path = 1 ∧ (validate e d).summary.pathCount = 2 ∧
      (validate e d).presentIn .path ≤ 2 ∧
      ((validate e d).presentIn .schema = 1 ↔
        ∀ key, d.Defines ["components", "schemas"] key → key ∈ ["B", "A"]) := by
  intro e d
  have hr : parseContent .json "a.json" ("\x7b\"paths\": \x7b\"/c\": null, \"/a\": null\x7d," ++
      "\"components\": \x7b\"schemas\": \x7b\"A\": null\x7d\x7d\x7d") = .ok d := by
    decide +kernel
  have hd : d.Ordered := ordered_of_parseContent hr
  have hp : e.paths.Nodup := by decide
  have hs : e.schemas.Nodup := by decide
  obtain ⟨h, h'⟩ := counts_agree_with_checks e hd hp hs
  exact ⟨hd, hp, hs, by decide, by decide, h.le, h'.eq_iff⟩

end ApiPresence

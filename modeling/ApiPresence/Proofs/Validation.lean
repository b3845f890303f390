import ApiPresence.Proofs.Lookup
import ApiPresence.Validation
import Mathlib.Data.List.Forall2

namespace ApiPresence

/-- A check tells of a key whether a document defines it at a place. -/
structure Check.Judges (c : Check) (document : Tree) (category : Category) (place : List String)
    (identifier : String) : Prop where
  category_eq : c.category = category
  identifier_eq : c.identifier = identifier
  present_iff : c.status = .present ↔ document.Defines place identifier
  missing_iff : c.status = .missing ↔ ¬ document.Defines place identifier

theorem Status.isPresent_eq_true_iff {s : Status} : s.isPresent = true ↔ s = .present := by
  cases s <;> decide

theorem Status.ofPresence_eq_present_iff : Status.ofPresence found = .present ↔ found = true := by
  cases found <;> decide

theorem Status.ne_present_iff {s : Status} : s ≠ .present ↔ s = .missing := by
  cases s <;> decide

theorem Report.countP_not_isPresent (r : Report) :
    r.checks.countP (!·.status.isPresent) = r.missingCount := by
  have h := r.checks.length_eq_countP_add_countP (·.status.isPresent)
  simp only [Bool.not_eq_true, Bool.decide_eq_false] at h
  rw [missingCount, presentCount, h, Nat.add_sub_cancel_left]

theorem Report.isComplete_iff {r : Report} :
    r.isComplete = true ↔ ∀ c ∈ r.checks, c.status = .present := by
  have hl : r.presentCount ≤ r.checks.length := List.countP_le_length
  have he : r.missingCount = 0 ↔ r.presentCount = r.checks.length := by
    rw [missingCount]
    omega
  rw [isComplete, beq_iff_eq, he, presentCount, List.countP_eq_length]
  simp only [Status.isPresent_eq_true_iff]

namespace Expectation

theorem check_present_iff (e : Expectation) (document : Tree) :
    (e.check document).status = .present ↔ document.Defines e.place e.identifier := by
  rw [check, Status.ofPresence_eq_present_iff, Tree.hasKeyAt_iff]

theorem check_judges (e : Expectation) (document : Tree) :
    (e.check document).Judges document e.category e.place e.identifier where
  category_eq := rfl
  identifier_eq := rfl
  present_iff := e.check_present_iff document
  missing_iff := by rw [← Status.ne_present_iff, ne_eq, e.check_present_iff document]

theorem check_isPresent (e : Expectation) (document : Tree) :
    (e.check document).status.isPresent = decide (document.Defines e.place e.identifier) := by
  rw [Bool.eq_iff_iff, Status.isPresent_eq_true_iff, e.check_present_iff document,
    decide_eq_true_iff]

end Expectation

/-- The expectations of one category, and the checks of them. -/
def expectAll (category : Category) (place identifiers : List String) : List Expectation :=
  identifiers.map (⟨category, place, ·⟩)

/-- The keys that a place of a document does not define, under their category. -/
def absences (document : Tree) (category : Category) (place identifiers : List String) :
    List (Category × String) :=
  (identifiers.filter fun id => ¬ document.Defines place id).map (category, ·)

theorem forall₂_judges (document : Tree) (category : Category) (place identifiers : List String) :
    List.Forall₂ (fun id c => Check.Judges c document category place id) identifiers
      ((expectAll category place identifiers).map (·.check document)) := by
  rw [expectAll, List.map_map, List.forall₂_map_right_iff, List.forall₂_same]
  intro id _
  exact Expectation.check_judges ⟨category, place, id⟩ document

theorem filter_category (document : Tree) (category other : Category)
    (place identifiers : List String) :
    (((expectAll category place identifiers).map (·.check document)).filter
      (·.category = other)).map (·.identifier) = if category = other then identifiers else [] := by
  rw [expectAll, List.map_map, List.filter_map, List.map_map]
  by_cases hc : category = other
  · simp [Expectation.check, Function.comp_def, hc]
  · simp [Expectation.check, Function.comp_def, hc]

theorem filter_missing (document : Tree) (category : Category) (place identifiers : List String) :
    (((expectAll category place identifiers).map (·.check document)).filter
      (!·.status.isPresent)).map (fun c => (c.category, c.identifier)) =
      absences document category place identifiers := by
  rw [expectAll, absences, List.map_map, List.filter_map, List.map_map]
  simp only [Function.comp_def, Expectation.check_isPresent]
  simp [Expectation.check]

theorem ExpectationSet.toList_eq (e : ExpectationSet) :
    e.toList = expectAll .path ["paths"] e.paths ++
      expectAll .schema ["components", "schemas"] e.schemas ++
      expectAll .security ["components", "securitySchemes"] [e.securityScheme] := rfl

theorem mem_expectAll_iff : expectation ∈ expectAll category place identifiers ↔
    expectation.category = category ∧ expectation.place = place ∧
      expectation.identifier ∈ identifiers := by
  rw [expectAll, List.mem_map]
  constructor
  · rintro ⟨id, hi, rfl⟩
    exact ⟨rfl, rfl, hi⟩
  · rintro ⟨rfl, rfl, hi⟩
    exact ⟨expectation.identifier, hi, rfl⟩

/-- The expectations of a set are those that it says it contains. -/
theorem ExpectationSet.mem_toList_iff (e : ExpectationSet) (category : Category)
    (identifier : String) :
    (∃ x ∈ e.toList, x.category = category ∧ x.identifier = identifier) ↔
      e.contains category identifier = true := by
  simp only [e.toList_eq, List.mem_append, mem_expectAll_iff]
  constructor
  · rintro ⟨x, (⟨hc, -, hi⟩ | ⟨hc, -, hi⟩) | ⟨hc, -, hi⟩, rfl, rfl⟩
    · simpa [hc, contains] using hi
    · simpa [hc, contains] using hi
    · rw [hc, contains, beq_iff_eq]
      exact (List.mem_singleton.mp hi).symm
  · intro h
    cases category with
    | metadata => cases h
    | path =>
      have hi : identifier ∈ e.paths := by simpa [contains] using h
      exact ⟨⟨.path, ["paths"], identifier⟩, .inl (.inl ⟨rfl, rfl, hi⟩), rfl, rfl⟩
    | schema =>
      have hi : identifier ∈ e.schemas := by simpa [contains] using h
      exact ⟨⟨.schema, ["components", "schemas"], identifier⟩, .inl (.inr ⟨rfl, rfl, hi⟩),
        rfl, rfl⟩
    | security =>
      have hi : identifier ∈ [e.securityScheme] := List.mem_singleton.mpr (eq_of_beq h).symm
      exact ⟨⟨.security, ["components", "securitySchemes"], identifier⟩, .inr ⟨rfl, rfl, hi⟩,
        rfl, rfl⟩

theorem validate_checks (e : ExpectationSet) (document : Tree) :
    (validate e document).checks = e.toList.map (·.check document) := rfl

/--
The checks of a validation follow the expectations in their order, each check says whether the
document defines its key, and the counts and selections of a report agree with the expectations.
-/
theorem validate_judges_expectations (e : ExpectationSet) (document : Tree) :
    (∃ paths schemas security,
      (validate e document).checks = paths ++ schemas ++ [security] ∧
      List.Forall₂ (fun id c => Check.Judges c document .path ["paths"] id) e.paths paths ∧
      List.Forall₂ (fun id c => Check.Judges c document .schema ["components", "schemas"] id)
        e.schemas schemas ∧
      security.Judges document .security ["components", "securitySchemes"] e.securityScheme) ∧
    (validate e document).checks.length = e.checkCount ∧
    ((validate e document).checksIn .path).map (·.identifier) = e.paths ∧
    ((validate e document).checksIn .schema).map (·.identifier) = e.schemas ∧
    ((validate e document).checksIn .security).map (·.identifier) = [e.securityScheme] ∧
    (∀ category identifier,
      (∃ c ∈ (validate e document).checks, c.category = category ∧ c.identifier = identifier) ↔
        e.contains category identifier = true) ∧
    (validate e document).missing.map (fun c => (c.category, c.identifier)) =
      absences document .path ["paths"] e.paths ++
      absences document .schema ["components", "schemas"] e.schemas ++
      absences document .security ["components", "securitySchemes"] [e.securityScheme] := by
  have hc := validate_checks e document
  simp only [e.toList_eq, List.map_append] at hc
  refine ⟨⟨_, _, _, hc, forall₂_judges _ _ _ _, forall₂_judges _ _ _ _,
    Expectation.check_judges ⟨.security, _, _⟩ document⟩, ?_, ?_, ?_, ?_, ?_, ?_⟩
  · simp [hc, expectAll, ExpectationSet.checkCount, Nat.add_assoc]
  · simp [Report.checksIn, hc, filter_category]
  · simp [Report.checksIn, hc, filter_category]
  · simp [Report.checksIn, hc, filter_category]
  · intro category identifier
    rw [← e.mem_toList_iff, validate_checks]
    simp [Expectation.check]
  · simp only [Report.missing, hc, List.filter_append, List.map_append, filter_missing]

end ApiPresence

import ApiPresence.Error
import ApiPresence.Proofs.Yaml.Writable
import Mathlib

namespace ApiPresence

open Yaml (load)

variable {path content : String}

/-- The stages in which a text in YAML can be refused, the earlier ones first. -/
inductive Refused (path content : String) : LoadError → Prop where
  | reading (hl : load content = .error fault) :
      Refused path content ⟨path, .malformed .yaml fault.message⟩
  | merging (hl : load content = .ok value) (hm : value.resolve = .error fault) :
      Refused path content ⟨path, .malformed .yaml (Yaml.Error.merge fault).message⟩
  | converting (hl : load content = .ok value) (hm : value.resolve = .ok resolved)
      (ht : resolved.toTree = .error fault) : Refused path content ⟨path, .notTree fault.message⟩

theorem parseYaml_eq_error_iff : parseYaml path content = .error e ↔ Refused path content e := by
  constructor
  · intro h
    cases hl : load content with
    | error fault =>
      rw [parseYaml, Yaml.loadMerged, hl] at h
      cases h
      exact .reading hl
    | ok value =>
      cases hm : value.resolve with
      | error fault =>
        rw [parseYaml, Yaml.loadMerged, hl, ok_bind, hm] at h
        cases h
        exact .merging hl hm
      | ok resolved =>
        rw [parseYaml, Yaml.loadMerged_eq_ok_iff.mpr ⟨value, hl, hm⟩] at h
        cases ht : resolved.toTree with
        | error fault =>
          simp only [ht] at h
          cases h
          exact .converting hl hm ht
        | ok tree =>
          simp only [ht] at h
          cases h
  · intro h
    cases h with
    | reading hl =>
      rw [parseYaml, Yaml.loadMerged, hl]
      rfl
    | merging hl hm =>
      rw [parseYaml, Yaml.loadMerged, hl, ok_bind, hm]
      rfl
    | converting hl hm ht =>
      rw [parseYaml, Yaml.loadMerged_eq_ok_iff.mpr ⟨_, hl, hm⟩]
      simp only [ht]

/-- A value has no tree exactly when a key of one of its mappings has no text. -/
theorem exists_toTree_error_iff {value : Yaml.Value} : (∃ fault, value.toTree = .error fault) ↔
    ∃ entries, value.Holds (.mapping entries) ∧ ∃ e ∈ entries, e.1.Unwritable := by
  have hn : (∃ fault, value.toTree = .error fault) ↔ ¬ ∃ tree, value.toTree = .ok tree := by
    cases value.toTree <;> simp
  rw [hn, Yaml.Value.exists_toTree_iff, Yaml.Value.Writable]
  simp only [not_forall, not_not, exists_prop]

theorem parseYaml_notTree_iff :
    (∃ reason, parseYaml path content = .error ⟨path, .notTree reason⟩) ↔
    ∃ value resolved entries, load content = .ok value ∧ value.resolve = .ok resolved ∧
      resolved.Holds (.mapping entries) ∧ ∃ e ∈ entries, e.1.Unwritable := by
  simp only [parseYaml_eq_error_iff]
  constructor
  · rintro ⟨reason, h⟩
    cases h with
    | converting hl hm ht =>
      obtain ⟨entries, hp, hk⟩ := exists_toTree_error_iff.mp ⟨_, ht⟩
      exact ⟨_, _, entries, hl, hm, hp, hk⟩
  · rintro ⟨value, resolved, entries, hl, hm, hp, hk⟩
    obtain ⟨fault, ht⟩ := exists_toTree_error_iff.mpr ⟨entries, hp, hk⟩
    exact ⟨_, .converting hl hm ht⟩

theorem parseYaml_malformed_iff :
    (∃ reason, parseYaml path content = .error ⟨path, .malformed .yaml reason⟩) ↔
      ∀ value resolved, load content = .ok value → value.resolve ≠ .ok resolved := by
  simp only [parseYaml_eq_error_iff]
  constructor
  · rintro ⟨reason, h⟩ value resolved hl hm
    cases h with
    | reading hl' =>
      rw [hl] at hl'
      cases hl'
    | merging hl' hm' =>
      rw [hl] at hl'
      cases hl'
      rw [hm] at hm'
      cases hm'
  · intro h
    cases hl : load content with
    | error fault => exact ⟨_, .reading hl⟩
    | ok value =>
      cases hm : value.resolve with
      | error fault => exact ⟨_, .merging hl hm⟩
      | ok resolved => exact absurd hm (h value resolved hl)

theorem Refused.kinds (h : Refused path content e) :
    ∃ reason, e = ⟨path, .malformed .yaml reason⟩ ∨ e = ⟨path, .notTree reason⟩ := by
  cases h with
  | reading => exact ⟨_, .inl rfl⟩
  | merging => exact ⟨_, .inl rfl⟩
  | converting => exact ⟨_, .inr rfl⟩

/-- Only an error of conversion is unexpected to a run; every other stays as it is. -/
theorem ofLoadError_kinds (e : LoadError) :
    (RunError.ofLoadError e = .unexpected e.message ↔ ∃ reason, e.cause = .notTree reason) ∧
      (RunError.ofLoadError e = .load e ↔ ∀ reason, e.cause ≠ .notTree reason) := by
  obtain ⟨path, cause⟩ := e
  cases cause <;> simp [RunError.ofLoadError]

/--
A text in YAML is refused as no tree exactly when it has a merged value with a key that has no text,
and as malformed exactly when it has no merged value. A text in JSON is only refused as malformed.
-/
theorem parse_refuses_by_stage (path content : String) :
    ((∃ reason, parseYaml path content = .error ⟨path, .notTree reason⟩) ↔
      ∃ value resolved entries, load content = .ok value ∧ value.resolve = .ok resolved ∧
        resolved.Holds (.mapping entries) ∧ ∃ e ∈ entries, e.1.Unwritable) ∧
    ((∃ reason, parseYaml path content = .error ⟨path, .malformed .yaml reason⟩) ↔
      ∀ value resolved, load content = .ok value → value.resolve ≠ .ok resolved) ∧
    (∀ e, parseYaml path content = .error e →
      ∃ reason, e = ⟨path, .malformed .yaml reason⟩ ∨ e = ⟨path, .notTree reason⟩) ∧
    (∀ e, parseJson path content = .error e → ∃ reason, e = ⟨path, .malformed .json reason⟩) ∧
    ∀ e, (RunError.ofLoadError e = .unexpected e.message ↔ ∃ reason, e.cause = .notTree reason) ∧
      (RunError.ofLoadError e = .load e ↔ ∀ reason, e.cause ≠ .notTree reason) := by
  refine ⟨parseYaml_notTree_iff, parseYaml_malformed_iff, ?_, ?_, ofLoadError_kinds⟩
  · intro e h
    exact (parseYaml_eq_error_iff.mp h).kinds
  · intro e h
    obtain ⟨fault, -, rfl⟩ := mapError_eq_error_iff.mp h
    exact ⟨_, rfl⟩

set_option maxRecDepth 100000 in
theorem load_listKey : load "a: &x {? [b] : c}\nd:\n  <<: *x\n" = .ok (.mapping [
    (.string "a", .mapping [(.sequence [.string "b"], .string "c")]),
    (.string "d", .mapping [(.string "<<", .mapping [
      (.sequence [.string "b"], .string "c")])])]) := by
  cbv

set_option maxRecDepth 100000 in
theorem load_scalarMerge : load "? [b]\n: c\n<<: d\n" = .ok (.mapping [
    (.sequence [.string "b"], .string "c"), (.string "<<", .string "d")]) := by
  cbv

/-- A key that has no text, and a merge that fails beside one. -/
theorem parse_refuses_by_stage_listKey :
    (∃ reason, parseYaml "-" "a: &x {? [b] : c}\nd:\n  <<: *x\n" =
      .error ⟨"-", .notTree reason⟩) ∧
    (∃ reason, parseYaml "-" "? [b]\n: c\n<<: d\n" =
      .error ⟨"-", .malformed .yaml reason⟩) := by
  obtain ⟨hc, -⟩ := parse_refuses_by_stage "-" "a: &x {? [b] : c}\nd:\n  <<: *x\n"
  obtain ⟨-, hm, -⟩ := parse_refuses_by_stage "-" "? [b]\n: c\n<<: d\n"
  refine ⟨hc.mpr ⟨_, _, _, load_listKey, rfl, .entry List.mem_cons_self .whole, _,
    List.mem_cons_self, .sequence⟩, hm.mpr ?_⟩
  intro value resolved hl hr
  rw [load_scalarMerge] at hl
  cases hl
  cases hr

end ApiPresence

import ApiPresence.Proofs.Text
import ApiPresence.Tree.Decode

namespace ApiPresence

theorem oneLine_intercalate (hs : OneLine separator) (hp : ∀ part ∈ parts, OneLine part) :
    OneLine (String.intercalate separator parts) := by
  induction parts with
  | nil => exact List.not_mem_nil
  | cons part rest ih =>
    obtain ⟨h, hr⟩ := List.forall_mem_cons.mp hp
    cases rest with
    | nil => exact h
    | cons next rest =>
      rw [String.intercalate_cons_cons, oneLine_append, oneLine_append]
      exact ⟨⟨h, hs⟩, ih hr⟩

namespace Found

theorem oneLine_boolean (value : Bool) : OneLine (boolean value).message := by
  cases value <;> exact oneLine_ofList.mpr (by decide)

theorem oneLine_whole (value : Int) : OneLine (whole value).message := by
  have hi : OneLine "integer `" := oneLine_ofList.mpr (by decide)
  have hq : OneLine "`" := by decide
  exact oneLine_append.mpr ⟨oneLine_append.mpr ⟨hi, oneLine_wholeOf value⟩, hq⟩

theorem oneLine_float (h : OneLine text) : OneLine (float text).message := by
  have hf : OneLine "floating point `" := oneLine_ofList.mpr (by decide)
  have hq : OneLine "`" := by decide
  exact oneLine_append.mpr ⟨oneLine_append.mpr ⟨hf, h⟩, hq⟩

theorem oneLine_string (value : String) : OneLine (string value).message := by
  have hs : OneLine "string " := oneLine_ofList.mpr (by decide)
  exact oneLine_append.mpr ⟨hs, Text.oneLine_quoted value⟩

theorem oneLine_sequence : OneLine sequence.message := oneLine_ofList.mpr (by decide)

theorem oneLine_map : OneLine map.message := by decide

end Found

theorem Tree.oneLine_found (tree : Tree) : OneLine tree.found.message := by
  cases tree with
  | null => exact oneLine_ofList.mpr (by decide)
  | array items => exact Found.oneLine_sequence
  | object members => exact Found.oneLine_map
  | bool value => exact Found.oneLine_boolean value
  | string value => exact Found.oneLine_string value
  | number value =>
    cases value with
    | whole value inRange => exact Found.oneLine_whole value
    | float value => exact Found.oneLine_float (oneLine_numberText _)

namespace Mismatch

theorem oneLine_backquoted : OneLine (backquoted s) ↔ OneLine s := by
  have hq : OneLine "`" := by decide
  simp [backquoted, hq]

theorem oneLine_oneOf (h : ∀ name ∈ known, OneLine name) : OneLine (oneOf known) := by
  unfold oneOf
  split
  · exact oneLine_ofList.mpr (by decide)
  · have he : OneLine "expected " := oneLine_ofList.mpr (by decide)
    simpa [he, oneLine_backquoted] using h
  · have he : OneLine "expected " := oneLine_ofList.mpr (by decide)
    have ho : OneLine " or " := by decide
    simpa [he, ho, oneLine_backquoted] using h
  · have he : OneLine "expected one of " := oneLine_ofList.mpr (by decide)
    refine oneLine_append.mpr ⟨he, oneLine_intercalate (by decide) fun part hp => ?_⟩
    obtain ⟨name, hn, rfl⟩ := List.mem_map.mp hp
    exact oneLine_backquoted.mpr (h name hn)

theorem oneLine_wrongType (hf : OneLine found.message) (he : OneLine expected) :
    OneLine (wrongType found expected).message := by
  have ht : OneLine "invalid type: " := oneLine_ofList.mpr (by decide)
  have hc : OneLine ", expected " := oneLine_ofList.mpr (by decide)
  show OneLine ("invalid type: " ++ found.message ++ ", expected " ++ expected)
  simp [hf, he, ht, hc]

theorem oneLine_wrongValue (hf : OneLine found.message) (he : OneLine expected) :
    OneLine (wrongValue found expected).message := by
  have ht : OneLine "invalid value: " := oneLine_ofList.mpr (by decide)
  have hc : OneLine ", expected " := oneLine_ofList.mpr (by decide)
  show OneLine ("invalid value: " ++ found.message ++ ", expected " ++ expected)
  simp [hf, he, ht, hc]

theorem oneLine_duplicateField (h : OneLine name) : OneLine (duplicateField name).message := by
  have hd : OneLine "duplicate field " := oneLine_ofList.mpr (by decide)
  exact oneLine_append.mpr ⟨hd, oneLine_backquoted.mpr h⟩

theorem oneLine_unknownVariant_iff :
    OneLine (unknownVariant name known).message ↔ OneLine name ∧ OneLine (oneOf known) := by
  have hu : OneLine "unknown variant " := oneLine_ofList.mpr (by decide)
  have hc : OneLine ", " := by decide
  show OneLine ("unknown variant " ++ backquoted name ++ ", " ++ oneOf known) ↔ _
  simp [oneLine_backquoted, hu, hc]

/-- A message of one line, but for the name of a variant that is not known. -/
inductive OneLineUpToName : Mismatch → Prop where
  | oneLine (h : OneLine m.message) : OneLineUpToName m
  | unknownVariant (h : ∀ name ∈ known, OneLine name) :
      OneLineUpToName (.unknownVariant name known)

theorem OneLineUpToName.oneLine_iff {m : Mismatch} (h : m.OneLineUpToName) :
    OneLine m.message ↔ ∀ name known, m = .unknownVariant name known → OneLine name := by
  cases h with
  | oneLine h =>
    refine iff_of_true h ?_
    rintro name known rfl
    exact (oneLine_unknownVariant_iff.mp h).1
  | unknownVariant h =>
    rw [oneLine_unknownVariant_iff, and_iff_left (oneLine_oneOf h)]
    constructor
    · rintro h _ _ ⟨⟩
      exact h
    · exact fun h => h _ _ rfl

end Mismatch
end ApiPresence

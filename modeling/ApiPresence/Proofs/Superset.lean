import ApiPresence.Proofs.Shared.Json
import ApiPresence.Proofs.Shared.Nodes
import Mathlib

namespace ApiPresence

/-- A text that is accepted as JSON is accepted as YAML, as the same tree. -/
def ReadsAlike (content : String) : Prop :=
  ∀ path tree, parseJson path content = .ok tree → parseYaml path content = .ok tree

/-- A character beyond 16 bits that is escaped in two halves is none in YAML. -/
theorem not_readsAlike_surrogates : ¬ ReadsAlike "\x7b\"title\": \"\\ud83d\\ude00\"\x7d" := by
  intro h
  have hj : parseJson "" "\x7b\"title\": \"\\ud83d\\ude00\"\x7d" =
      .ok (.object [("title", .string "😀")]) := by
    cbv
  have hy : Yaml.load "\x7b\"title\": \"\\ud83d\\ude00\"\x7d" = .error (.malformed (.malformed
      .invalidCharacterCode ⟨13, 0, 13⟩ (some (.escape, ⟨10, 0, 10⟩)))) := by
    cbv
  obtain ⟨value, hv, -⟩ := Yaml.parseYaml_eq_ok_iff.mp (h _ _ hj)
  rw [hy] at hv
  cases hv

section Shared

variable {document : Spaced Source}

/-- A document that both notations share is its tree in either. -/
theorem Spaced.IsShared.parseContent (h : document.IsShared 127) (format : DocumentFormat)
    (path : String) :
    parseContent format path (String.ofList document.text) = .ok document.value.tree := by
  cases format with
  | yaml => exact Yaml.parseYaml_eq_ok_iff.mpr h.load
  | json =>
    rw [ApiPresence.parseContent, parseJson, h.parse]
    rfl

/-- A file that holds such a document is loaded as its tree, whatever its extension tells. -/
theorem Spaced.IsShared.loadDocument (h : document.IsShared 127) {fs : FileSystem} {path : String}
    (hp : fs.contains path = true)
    (hr : fs.readText path = .ok (String.ofList document.text)) :
    loadDocument fs path = .ok document.value.tree := by
  rw [ApiPresence.loadDocument, if_pos hp, hr]
  exact h.parseContent _ path

/-- YAML takes what the two notations share for the tree that JSON takes it for. -/
theorem shared_document_readsAlike (h : document.IsShared 127) (path : String) :
    parseJson path (String.ofList document.text) = .ok document.value.tree ∧
      parseYaml path (String.ofList document.text) = .ok document.value.tree :=
  ⟨h.parseContent .json path, h.parseContent .yaml path⟩

end Shared

/-- The document `{"codes": [200, 1.5]}` on a line of its own. -/
def codesDocument : Spaced Source where
  front := []
  value := .object
    (⟨[], ['c', 'o', 'd', 'e', 's'], "codes", []⟩,
      ⟨[' '], .array ⟨[], .word ['2', '0', '0'] (.number (.whole 200 (by decide))), []⟩
        [⟨[' '], .word ['1', '.', '5']
          (.number (.float (DecimalText.value ⟨1, ['5'], []⟩ false 0))), []⟩], []⟩) []
  back := ['\n']

theorem text_codesDocument :
    String.ofList codesDocument.text = "\x7b\"codes\": [200, 1.5]\x7d\n" := by
  decide

theorem isShort_codesDocument : (⟨1, ['5'], []⟩ : DecimalText).IsShort 0 where
  fraction := List.forall_mem_singleton.mpr rfl
  exponent := rfl
  marked := .inl (by decide)
  significand := by decide +kernel
  kept := Nat.zero_le _
  least := by decide
  most := by decide

theorem isShared_codesDocument : codesDocument.IsShared 127 := by
  have hempty : Json.Blank [] := List.forall_mem_nil _
  have hspace : Json.Blank [' '] := List.forall_mem_singleton.mpr rfl
  have hdecimal := IsWord.decimal isShort_codesDocument false
  rw [show sign false ++ DecimalText.text ⟨1, ['5'], []⟩ = ['1', '.', '5'] by decide] at hdecimal
  have hwhole : IsWord ['2', '0', '0'] _ := .whole (n := 200) (by decide)
  have harray : Source.IsShared 126 (.array ⟨[], .word ['2', '0', '0'] _, []⟩
      [⟨[' '], .word ['1', '.', '5'] _, []⟩]) := .array
    (List.forall_mem_cons.mpr ⟨⟨hempty, hempty⟩, List.forall_mem_singleton.mpr ⟨hspace, hempty⟩⟩)
    (List.forall_mem_cons.mpr ⟨.word hwhole, List.forall_mem_singleton.mpr (.word hdecimal)⟩)
  exact ⟨List.forall_mem_nil _, .object (List.forall_mem_singleton.mpr
      ⟨hempty, .of_raw (by decide), List.forall_mem_nil _, by decide +kernel, by decide⟩)
    (List.nodup_singleton _) (List.forall_mem_singleton.mpr ⟨hspace, hempty⟩)
    (List.forall_mem_singleton.mpr harray), List.forall_mem_singleton.mpr (by decide)⟩

theorem shared_document_readsAlike_codes : codesDocument.IsShared 127 ∧
    ∀ path, parseJson path "\x7b\"codes\": [200, 1.5]\x7d\n" = .ok codesDocument.value.tree ∧
      parseYaml path "\x7b\"codes\": [200, 1.5]\x7d\n" = .ok codesDocument.value.tree := by
  refine ⟨isShared_codesDocument, fun path => ?_⟩
  rw [← text_codesDocument]
  exact shared_document_readsAlike isShared_codesDocument path

end ApiPresence

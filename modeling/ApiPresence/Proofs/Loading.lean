import ApiPresence.Proofs.Directory
import ApiPresence.Proofs.Ending
import ApiPresence.Proofs.Refusal

namespace ApiPresence

open FilePath (NamesJson)

variable {fs : FileSystem} {path : String}

/-- How the loading of a path ends, by what the system answers about it. -/
inductive Loading (fs : FileSystem) (path : String) : Except LoadError Tree → Prop
  | absent (hc : ¬ fs.contains path) : Loading fs path (.error ⟨path, .notFound⟩)
  | fault (hc : fs.contains path) (hr : fs.read path = .error fault) :
      Loading fs path (.error ⟨path, .unreadable fault.message⟩)
  | octets (hc : fs.contains path) (hr : fs.read path = .ok content)
      (ht : ∀ text : String, text.toUTF8 ≠ content) :
      Loading fs path (.error ⟨path, .unreadable "stream did not contain valid UTF-8"⟩)
  | text (hc : fs.contains path) (hr : fs.read path = .ok (String.toUTF8 text)) :
      Loading fs path (parseContent (.ofPath path) path text)

/-- Every loading ends in one of these ways. -/
theorem loading (fs : FileSystem) (path : String) : Loading fs path (loadDocument fs path) := by
  by_cases hc : fs.contains path
  · cases hr : fs.read path with
    | error fault =>
      rw [loadDocument_fault hc hr]
      exact .fault hc hr
    | ok content =>
      cases hf : String.fromUTF8? content with
      | none =>
        have ht : ∀ text : String, text.toUTF8 ≠ content := by
          intro text h
          rw [fromUTF8?_eq_some_iff.mpr h] at hf
          cases hf
        rw [loadDocument, if_pos hc, FileSystem.readText, hr]
        simp only [hf]
        exact .octets hc hr ht
      | some text =>
        rw [← fromUTF8?_eq_some_iff.mp hf] at hr
        rw [loadDocument_text hc hr]
        exact .text hc hr
  · rw [loadDocument_absent hc]
    exact .absent hc

/-- What is wrong with a text is never that it is not there or cannot be read. -/
theorem parseContent_fault (h : parseContent format path text = .error e) :
    e.path = path ∧ e.cause ≠ .notFound ∧ ∀ reason, e.cause ≠ .unreadable reason := by
  cases format with
  | json =>
    obtain ⟨fault, -, rfl⟩ := mapError_eq_error_iff.mp h
    exact ⟨rfl, nofun, nofun⟩
  | yaml =>
    obtain ⟨reason, rfl | rfl⟩ := (parseYaml_eq_error_iff.mp h).kinds
    · exact ⟨rfl, nofun, nofun⟩
    · exact ⟨rfl, nofun, nofun⟩

/-- What is read at a path is no text. -/
def FileSystem.GivesNoText (fs : FileSystem) (path : String) : Prop :=
  (∃ fault, fs.read path = .error fault) ∨
    ∃ content, fs.read path = .ok content ∧ ∀ text : String, text.toUTF8 ≠ content

theorem FileSystem.not_givesNoText (hr : fs.read path = .ok (String.toUTF8 text)) :
    ¬ fs.GivesNoText path := by
  rintro (⟨fault, hf⟩ | ⟨content, ho, ht⟩)
  · cases hr.symm.trans hf
  · exact ht text (Except.ok.inj (hr.symm.trans ho))

namespace Loading

theorem path_eq (h : Loading fs path (.error e)) : e.path = path := by
  generalize he : Except.error e = ended at h
  cases h with
  | absent | fault | octets =>
    cases he
    rfl
  | text => exact (parseContent_fault he.symm).1

theorem notFound_iff (h : Loading fs path ended) :
    (∃ e, ended = .error e ∧ e.cause = .notFound) ↔ ¬ fs.contains path := by
  cases h with
  | absent hc => exact iff_of_true ⟨_, rfl, rfl⟩ hc
  | fault hc | octets hc => exact iff_of_false (by simp) (not_not_intro hc)
  | text hc =>
    refine iff_of_false ?_ (not_not_intro hc)
    intro ⟨e, he, hn⟩
    exact (parseContent_fault he).2.1 hn

theorem unreadable_iff (h : Loading fs path ended) :
    (∃ e reason, ended = .error e ∧ e.cause = .unreadable reason) ↔
      fs.contains path ∧ fs.GivesNoText path := by
  cases h with
  | absent hc => exact iff_of_false (by simp) fun h => hc h.1
  | fault hc hr => exact iff_of_true ⟨_, _, rfl, rfl⟩ ⟨hc, .inl ⟨_, hr⟩⟩
  | octets hc hr ht => exact iff_of_true ⟨_, _, rfl, rfl⟩ ⟨hc, .inr ⟨_, hr, ht⟩⟩
  | text hc hr =>
    refine iff_of_false ?_ fun h => FileSystem.not_givesNoText hr h.2
    intro ⟨e, reason, he, hn⟩
    exact (parseContent_fault he).2.2 reason hn

end Loading

/-- Below a directory, what is found is a directory or can be read. -/
theorem Directory.loading_ends_by_node (d : Directory) (path : String) :
    ((∃ e, loadDocument d.asFileSystem path = .error e ∧ e.cause = .notFound) ↔
      ∀ node, d.find path ≠ .ok node) ∧
    ((∃ e reason, loadDocument d.asFileSystem path = .error e ∧ e.cause = .unreadable reason) ↔
      d.find path = .ok .directory ∨
        ∃ content, d.find path = .ok (.file content) ∧
          ∀ text : String, text.toUTF8 ≠ content) := by
  have h := loading d.asFileSystem path
  rw [h.notFound_iff, h.unreadable_iff, FileSystem.GivesNoText]
  simp only [Directory.asFileSystem, Directory.read]
  cases d.find path with
  | error fault => simp [Except.isOk, Except.toBool]
  | ok node => cases node <;> simp [Except.isOk, Except.toBool]

theorem loadDocument_json (hc : fs.contains path) (hr : fs.read path = .ok (String.toUTF8 text))
    (hj : NamesJson path) : loadDocument fs path = parseJson path text := by
  rw [loadDocument_text hc hr, DocumentFormat.ofPath_eq_json_iff.mpr hj, parseContent]

theorem loadDocument_yaml (hc : fs.contains path) (hr : fs.read path = .ok (String.toUTF8 text))
    (hj : ¬ NamesJson path) : loadDocument fs path = parseYaml path text := by
  rw [loadDocument_text hc hr]
  cases ho : DocumentFormat.ofPath path with
  | json => exact absurd (DocumentFormat.ofPath_eq_json_iff.mp ho) hj
  | yaml => rfl

/--
A path loads by what the system answers: what is not found, and what is found but gives no text,
makes an error of its own kind, and a text is read as JSON exactly behind the extension `json`.
Every error names the path and leaves a writer as it is; a tree has its report written once.
-/
theorem loading_ends_by_answers (fs : FileSystem) (path : String) (w : Writer) :
    ((∃ e, loadDocument fs path = .error e ∧ e.cause = .notFound) ↔ ¬ fs.contains path) ∧
    ((∃ e reason, loadDocument fs path = .error e ∧ e.cause = .unreadable reason) ↔
      fs.contains path ∧ fs.GivesNoText path) ∧
    (∀ fault, fs.contains path → fs.read path = .error fault →
      loadDocument fs path = .error ⟨path, .unreadable fault.message⟩) ∧
    (∀ text : String, fs.contains path → fs.read path = .ok text.toUTF8 →
      (NamesJson path → loadDocument fs path = parseJson path text) ∧
      (¬ NamesJson path → loadDocument fs path = parseYaml path text)) ∧
    (∀ e, loadDocument fs path = .error e → e.path = path ∧
      (∀ reason, e.cause = .notTree reason →
        w.checkDocument fs path = (.error (.unexpected e.message), w)) ∧
      ((∀ reason, e.cause ≠ .notTree reason) →
        w.checkDocument fs path = (.error (.load e), w))) ∧
    ∀ tree, loadDocument fs path = .ok tree → ∃ text,
      Terminated (w.format.formatReport path (validate .default tree) w.coloring) text ∧
      (w.sink.TakesAll text.toUTF8.toList →
        w.checkDocument fs path = (.ok (), { w with
          sink := ⟨w.sink.written ++ text.toUTF8.toList,
            w.sink.room.map (· - text.toUTF8.toList.length), w.sink.flushes + 1⟩ })) ∧
      ∀ room, w.sink.room = some room → room < text.toUTF8.toList.length →
        w.checkDocument fs path = (.error (.io "failed to write whole buffer"), { w with
          sink := ⟨w.sink.written ++ text.toUTF8.toList.take room, some 0,
            w.sink.flushes⟩ }) := by
  have h := loading fs path
  refine ⟨h.notFound_iff, h.unreadable_iff, fun fault => loadDocument_fault, ?_, ?_, ?_⟩
  · intro text hc hr
    exact ⟨loadDocument_json hc hr, loadDocument_yaml hc hr⟩
  · intro e he
    rw [Writer.checkDocument_error he]
    rw [he] at h
    refine ⟨h.path_eq, ?_, ?_⟩
    · intro reason hc
      rw [RunError.ofLoadError_notTree hc]
    · intro hc
      rw [RunError.ofLoadError_other hc]
  · intro tree hl
    rw [Writer.checkDocument_ok hl]
    obtain ⟨format, coloring, written, room, flushes⟩ := w
    refine ⟨_, endLine_terminated _, fun ht => Writer.perform_eq_of_takesAll ht, ?_⟩
    intro room hr ho
    cases hr
    exact Writer.perform_eq_of_lt ho written flushes

theorem namesJson_spelled : NamesJson "a.b/c.JSON/." :=
  ⟨['J', 'S', 'O', 'N'], @FilePath.Extends.intro _ ['a', '.', 'b', '/'] ['c'] ['/', '.']
    (@FilePath.Leading.slash ['a', '.', 'b']) (by decide) (by decide) (.point .nil), by decide⟩

/-- An extension counts behind points and slashes, and a point in front of a name does not. -/
theorem loading_ends_by_answers_spelled :
    let fs : FileSystem := ⟨fun path => path ≠ "d", fun path =>
      if path = "a" then .error .isDirectory
      else if path = "b" then .ok "{? [b] : c}".toUTF8
      else if path = "c" then .error (.other 13 "Permission denied")
      else .ok "[]".toUTF8⟩
    let w : Writer := ⟨.json, .none, .empty none⟩
    loadDocument fs "a.b/c.JSON/." = parseJson "a.b/c.JSON/." "[]" ∧
    loadDocument fs ".json" = parseYaml ".json" "[]" ∧
    (∃ e, w.checkDocument fs "a" = (.error (.load e), w)) ∧
    (∃ reason, w.checkDocument fs "b" = (.error (.unexpected reason), w)) ∧
    loadDocument fs "c" = .error ⟨"c", .unreadable "Permission denied (os error 13)"⟩ ∧
    (∃ e, loadDocument fs "d" = .error e ∧ e.cause = .notFound) ∧
    ∃ text, Terminated
        (OutputFormat.json.formatReport ".json" (validate .default (.array [])) .none) text ∧
      w.checkDocument fs ".json" = (.ok (), { w with sink := ⟨text.toUTF8.toList, none, 1⟩ }) := by
  intro fs w
  obtain ⟨-, -, -, hj, -⟩ := loading_ends_by_answers fs "a.b/c.JSON/." w
  obtain ⟨-, -, -, hy, -, ht⟩ := loading_ends_by_answers fs ".json" w
  obtain ⟨-, hu, -, -, ha, -⟩ := loading_ends_by_answers fs "a" w
  obtain ⟨-, -, -, hb, hb', -⟩ := loading_ends_by_answers fs "b" w
  obtain ⟨-, -, hc, -⟩ := loading_ends_by_answers fs "c" w
  obtain ⟨hd, -⟩ := loading_ends_by_answers fs "d" w
  have hn : ∀ path ∈ [".json", "b"], ¬ NamesJson path := by
    simp only [← DocumentFormat.ofPath_eq_json_iff]
    decide
  have hl := (hy "[]" rfl rfl).2 (hn _ (by decide))
  have hk := (hb "{? [b] : c}" rfl rfl).2 (hn _ (by decide))
  have hm : (IoError.other 13 "Permission denied").message = "Permission denied (os error 13)" := by
    decide
  refine ⟨(hj "[]" rfl rfl).1 namesJson_spelled, hl, ?_, ?_, hm ▸ hc _ rfl rfl,
    hd.mpr (by decide), ?_⟩
  · obtain ⟨e, reason, he, hc⟩ := hu.mpr ⟨rfl, .inl ⟨_, rfl⟩⟩
    exact ⟨e, (ha e he).2.2 (by simp [hc])⟩
  · have he : parseYaml "b" "{? [b] : c}" = .error ⟨"b", .notTree "key must be a string"⟩ := by
      cbv
    exact ⟨_, (hb' _ (hk.trans he)).2.1 _ rfl⟩
  · have ho : parseYaml ".json" "[]" = .ok (.array []) := by cbv
    obtain ⟨text, hw, hf, -⟩ := ht _ (hl.trans ho)
    exact ⟨text, hw, hf (Sink.takesAll_of_endless rfl _)⟩

/--
What is there need not be found, as at the end of too long a path; what is found and gives no text
need be neither a directory nor octets that are no text.
-/
theorem not_loading_by_node :
    let d : Directory := ⟨[(["a.json"], .file "\x7b\x7d".toUTF8)]⟩
    let distant := String.ofList (Directory.winding 2048 "a.json".toList)
    let broken : FileSystem := ⟨fun _ => true, fun _ => .error (.other 5 "Input/output error")⟩
    (d.follow (.inside []) (FilePath.parts distant) = .ok (.file "\x7b\x7d".toUTF8) ∧
      loadDocument d.asFileSystem distant = .error ⟨distant, .notFound⟩) ∧
    broken.contains "a.json" ∧ broken.read "a.json" ≠ .error .isDirectory ∧
      (∀ content, broken.read "a.json" ≠ .ok content) ∧
      loadDocument broken "a.json" =
        .error ⟨"a.json", .unreadable "Input/output error (os error 5)"⟩ := by
  intro d distant broken
  have hp : FilePath.parts distant = List.replicate 2048 ['.'] ++ ["a.json".toList] :=
    Directory.parts_winding (by decide) 2048
  have hd : d.node? [] = some .directory := rfl
  have hm : (IoError.other 5 "Input/output error").message = "Input/output error (os error 5)" := by
    decide
  have hs : 4096 ≤ distant.utf8ByteSize := Directory.le_utf8ByteSize_winding 2048 _
  refine ⟨⟨?_, loadDocument_absent (Directory.not_contains_of_le hs)⟩, rfl, nofun, nofun, ?_⟩
  · rw [hp, Directory.follow_points hd]
    rfl
  · rw [← hm]
    exact loadDocument_fault rfl rfl

end ApiPresence

import ApiPresence.Render.Format
import ApiPresence.Validation
import Mathlib.Data.List.Forall2

namespace ApiPresence

theorem joinLines_toList (lines : List String) :
    (joinLines lines).toList = lines.flatMap fun line => line.toList ++ ['\n'] := by
  simp [joinLines, List.flatMap_map]

theorem joinLines_cons (line : String) (lines : List String) :
    joinLines (line :: lines) = line ++ "\n" ++ joinLines lines := by
  apply String.toList_injective
  simp [joinLines_toList]

theorem mem_joinLines_iff (hc : c ≠ '\n') (lines : List String) :
    c ∈ (joinLines lines).toList ↔ ∃ line ∈ lines, c ∈ line.toList := by
  simp [joinLines_toList, hc]

/-- Colours that are not wanted do not show, permitted or not. -/
theorem formatReport_unwanted (format : OutputFormat) (document : String) (r : Report)
    (permitted : Bool) :
    format.formatReport document r ⟨false, permitted⟩ = format.formatReport document r .none := by
  cases format <;> rfl

theorem statusLine_toList (level : Level) (message : String) :
    (statusLine level message .none).toList = level.tag.toList ++ ' ' :: message.toList := by
  simp [statusLine, Level.shown, Coloring.isOn, Coloring.none]

theorem Check.line_toList (c : Check) :
    (c.line .none).toList = (Level.ofStatus c.status).tag.toList ++ ' ' ::
      (c.category.label.toList ++ ' ' :: (c.status.name.toList ++ ':' :: ' ' ::
        c.identifier.toList)) := by
  rw [line, statusLine_toList]
  simp [message]

/-- Two checks of one key, whatever they found. -/
def Check.SameSubject (c c' : Check) : Prop :=
  c.category = c'.category ∧ c.identifier = c'.identifier

namespace Check.SameSubject

/-- Tags are as long as each other, and so are the words for a status. -/
theorem length_line {c c' : Check} (h : c.SameSubject c') :
    (c.line .none).toList.length = (c'.line .none).toList.length := by
  obtain ⟨category, identifier, status⟩ := c
  obtain ⟨category', identifier', status'⟩ := c'
  obtain ⟨rfl, rfl⟩ := h
  rw [line_toList, line_toList]
  cases status <;> cases status' <;> simp [Level.ofStatus, Level.tag, Status.name]

/-- The tag tells the status. -/
theorem eq_of_line {c c' : Check} (h : c.SameSubject c')
    (hl : (c.line .none).toList = (c'.line .none).toList) : c = c' := by
  obtain ⟨category, identifier, status⟩ := c
  obtain ⟨category', identifier', status'⟩ := c'
  obtain ⟨rfl, rfl⟩ := h
  rw [line_toList, line_toList] at hl
  cases status with
  | present =>
    cases status' with
    | present => rfl
    | missing => simp [Level.ofStatus, Level.tag] at hl
  | missing =>
    cases status' with
    | present => simp [Level.ofStatus, Level.tag] at hl
    | missing => rfl

end Check.SameSubject

/-- What a human report says of some checks. -/
def checkText (checks : List Check) : List Char :=
  checks.flatMap fun c => (c.line .none).toList ++ ['\n']

theorem checkText_cons (c : Check) (cs : List Check) :
    checkText (c :: cs) = (c.line .none).toList ++ '\n' :: checkText cs := by
  simp [checkText]

theorem length_checkText (h : List.Forall₂ Check.SameSubject cs cs') :
    (checkText cs).length = (checkText cs').length := by
  induction h with
  | nil => rfl
  | cons hc hcs ih =>
    rw [checkText_cons, checkText_cons, List.length_append, List.length_append, hc.length_line,
      List.length_cons, List.length_cons, ih]

theorem eq_of_checkText (h : List.Forall₂ Check.SameSubject cs cs')
    (ht : checkText cs = checkText cs') : cs = cs' := by
  induction h with
  | nil => rfl
  | cons hc hcs ih =>
    rw [checkText_cons, checkText_cons] at ht
    obtain ⟨hl, hr⟩ := List.append_inj ht hc.length_line
    rw [hc.eq_of_line hl, ih (List.cons.inj hr).2]

theorem validate_sameSubject (e : ExpectationSet) (d d' : Tree) :
    List.Forall₂ Check.SameSubject (validate e d).checks (validate e d').checks := by
  rw [validate, validate, List.forall₂_map_left_iff, List.forall₂_map_right_iff, List.forall₂_same]
  intro x _
  exact ⟨rfl, rfl⟩

/-- What follows the metadata in a human report. -/
theorem human_toList (document : String) (r : Report) :
    ∃ metadata, (OutputFormat.human.formatReport document r .none).toList =
      metadata ++ (checkText r.checks ++ "\nSUCCESS: Document validation complete\n".toList) := by
  refine ⟨(statusLine .success ("Document parsed successfully: " ++ document) .none ::
    r.summary.lines).flatMap fun line => line.toList ++ ['\n'], ?_⟩
  rw [OutputFormat.formatReport, joinLines_toList, Report.lines, List.append_assoc,
    List.flatMap_append, List.flatMap_append, List.flatMap_map, checkText]
  rfl

/--
A human report tells the outcome of every check, whatever the document and its path hold: reports on
the same expectations that read the same have the same checks.
-/
theorem human_report_determines_checks (e : ExpectationSet)
    (h : OutputFormat.human.formatReport path (validate e d) ⟨false, permitted⟩ =
      OutputFormat.human.formatReport path' (validate e d') ⟨false, permitted'⟩) :
    (validate e d).checks = (validate e d').checks := by
  rw [formatReport_unwanted, formatReport_unwanted] at h
  obtain ⟨metadata, hm⟩ := human_toList path (validate e d)
  obtain ⟨metadata', hm'⟩ := human_toList path' (validate e d')
  have hs := validate_sameSubject e d d'
  -- The metadata may be of any length, so the texts are compared from their ends.
  have ht := congrArg String.toList h
  rw [hm, hm'] at ht
  have hl := length_checkText hs
  obtain ⟨-, hc⟩ := List.append_inj' ht (by rw [List.length_append, List.length_append, hl])
  exact eq_of_checkText hs (List.append_cancel_right hc)

/-- The ends of a path and of a version stand where another report has version and title. -/
theorem human_report_determines_checks_shifted :
    let e : ExpectationSet := ⟨["/a"], ["A"], "s"⟩
    let d : Tree := .object [("info", .object [("title", .string "2")]),
      ("openapi", .string "1\nAPI title: SUCCESS: Path present: /a"),
      ("paths", .object [("/a", .null)])]
    let d' : Tree := .object [
      ("info", .object [("title", .string "SUCCESS: Path present: /a\nAPI title: 2")]),
      ("openapi", .string "0\nOpenAPI version: 1"), ("paths", .object [("/a", .bool true)])]
    OutputFormat.human.formatReport "x\nOpenAPI version: 0" (validate e d) ⟨false, true⟩ =
        OutputFormat.human.formatReport "x" (validate e d') ⟨false, false⟩ ∧
      (validate e d).checks = (validate e d').checks := by
  intro e d d'
  have h : OutputFormat.human.formatReport "x\nOpenAPI version: 0" (validate e d) ⟨false, true⟩ =
      OutputFormat.human.formatReport "x" (validate e d') ⟨false, false⟩ := by decide +kernel
  exact ⟨h, human_report_determines_checks e h⟩

end ApiPresence

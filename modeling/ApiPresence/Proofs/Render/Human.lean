import ApiPresence.Proofs.Render.Lines
import ApiPresence.Proofs.Text
import ApiPresence.Proofs.Validation

namespace ApiPresence

/-- A check as a line. -/
inductive Check.ReadsAs (c : Check) : String → Prop where
  | present (hs : c.status = .present) :
      c.ReadsAs ("SUCCESS: " ++ c.category.label ++ " present: " ++ c.identifier)
  | missing (hs : c.status = .missing) :
      c.ReadsAs ("WARNING: " ++ c.category.label ++ " missing: " ++ c.identifier)

def BeginsWith (label line : String) : Prop := label.toList <+: line.toList

instance (label line : String) : Decidable (BeginsWith label line) :=
  inferInstanceAs (Decidable (_ <+: _))

/-- The lines of a human report, one for each of its parts. -/
inductive HumanLines (document : String) (r : Report) : List String → Prop where
  | parts (hm : List.Forall₂ BeginsWith ["OpenAPI version: ", "API title: ", "API description: ",
        "Server count: ", "Tag count: ", "Path count: ", "Schema count: "] metadata)
      (hc : List.Forall₂ Check.ReadsAs r.checks checks) :
      HumanLines document r (("SUCCESS: Document parsed successfully: " ++ document) :: metadata
        ++ checks ++ ["", "SUCCESS: Document validation complete"])

/--
A text can be read line by line as a report: each line is one part of the report, and the warnings
are the lines that begin as warnings do.
-/
def ReadsByLine (document : String) (r : Report) (text : String) : Prop :=
  ∃ lines, text = joinLines lines ∧ (∀ line ∈ lines, OneLine line) ∧
    lines.length = r.checks.length + 10 ∧ HumanLines document r lines ∧
    lines.countP (BeginsWith "WARNING:") = r.missingCount

theorem count_joinLines (lines : List String) : (joinLines lines).toList.count '\n' =
    lines.length + (lines.flatMap String.toList).count '\n' := by
  rw [joinLines_toList]
  induction lines with
  | nil => rfl
  | cons line lines ih =>
    rw [List.flatMap_cons, List.count_append, ih]
    simp
    omega

/-- Texts that are joined are lines when there are as many of them as line breaks. -/
theorem count_joinLines_eq_length_iff :
    (joinLines lines).toList.count '\n' = lines.length ↔ ∀ line ∈ lines, OneLine line := by
  rw [count_joinLines, Nat.add_eq_left, List.count_eq_zero, List.mem_flatMap]
  exact ⟨fun h line hl hm => h ⟨line, hl, hm⟩, fun h ⟨line, hl, hm⟩ => h line hl hm⟩

theorem Check.line_present {c : Check} (hs : c.status = .present) :
    c.line .none = "SUCCESS: " ++ c.category.label ++ " present: " ++ c.identifier := by
  apply String.toList_injective
  simp [line_toList, hs, Level.ofStatus, Level.tag, Status.name]

theorem Check.line_missing {c : Check} (hs : c.status = .missing) :
    c.line .none = "WARNING: " ++ c.category.label ++ " missing: " ++ c.identifier := by
  apply String.toList_injective
  simp [line_toList, hs, Level.ofStatus, Level.tag, Status.name]

theorem Check.line_readsAs (c : Check) : c.ReadsAs (c.line .none) := by
  cases hs : c.status with
  | present => exact line_present hs ▸ .present hs
  | missing => exact line_missing hs ▸ .missing hs

theorem Check.beginsWith_warning_iff (c : Check) :
    BeginsWith "WARNING:" (c.line .none) ↔ ¬ c.status.isPresent = true := by
  cases hs : c.status with
  | present => simp [BeginsWith, line_toList, hs, Level.ofStatus, Level.tag, Status.isPresent]
  | missing => simp [BeginsWith, line_toList, hs, Level.ofStatus, Level.tag, Status.isPresent]

theorem Check.oneLine_line (c : Check) (hi : OneLine c.identifier) : OneLine (c.line .none) := by
  have hc : OneLine c.category.label := by
    cases c.category <;> exact oneLine_ofList.mpr (by decide)
  cases hs : c.status with
  | present =>
    have ht : OneLine "SUCCESS: " := oneLine_ofList.mpr (by decide)
    have hp : OneLine " present: " := oneLine_ofList.mpr (by decide)
    simp [line_present hs, hi, hc, ht, hp]
  | missing =>
    have ht : OneLine "WARNING: " := oneLine_ofList.mpr (by decide)
    have hm : OneLine " missing: " := oneLine_ofList.mpr (by decide)
    simp [line_missing hs, hi, hc, ht, hm]

theorem oneLine_decimal (n : Nat) : OneLine (decimal n) :=
  oneLine_ofList.mpr (FloatNotation.not_mem_digitsOf rfl n)

theorem Summary.oneLine_lines_iff (s : Summary) : (∀ line ∈ s.lines, OneLine line) ↔
    OneLine s.versionDisplay ∧ OneLine s.titleDisplay ∧ OneLine s.descriptionExcerpt := by
  have hl : ∀ label ∈ ["OpenAPI version: ", "API title: ", "API description: ", "Server count: ",
      "Tag count: ", "Path count: ", "Schema count: "], OneLine label := by
    simp only [List.forall_mem_cons]
    refine ⟨?_, ?_, ?_, ?_, ?_, ?_, ?_, List.forall_mem_nil _⟩
    all_goals exact oneLine_ofList.mpr (by decide)
  simp only [List.forall_mem_cons] at hl
  simp [lines, hl, oneLine_decimal]

namespace Report

theorem parsed_eq (document : String) :
    statusLine .success ("Document parsed successfully: " ++ document) .none =
      "SUCCESS: Document parsed successfully: " ++ document := by
  apply String.toList_injective
  simp [statusLine_toList, Level.tag]

theorem complete_eq : statusLine .success "Document validation complete" .none =
    "SUCCESS: Document validation complete" := by
  apply String.toList_injective
  simp [statusLine_toList, Level.tag]

theorem lines_plain (document : String) (r : Report) : r.lines document .none =
    ("SUCCESS: Document parsed successfully: " ++ document) :: r.summary.lines
      ++ r.checks.map (·.line .none) ++ ["", "SUCCESS: Document validation complete"] := by
  rw [lines, parsed_eq, complete_eq]

theorem human_lines (document : String) (r : Report) :
    HumanLines document r (r.lines document .none) := by
  rw [lines_plain]
  refine .parts ?_ ?_
  · simp [Summary.lines, BeginsWith]
  · rw [List.forall₂_map_right_iff, List.forall₂_same]
    exact fun c _ => c.line_readsAs

theorem length_lines (document : String) (r : Report) :
    (r.lines document .none).length = r.checks.length + 10 := by
  simp [lines_plain, Summary.lines]

theorem countP_warning (document : String) (r : Report) :
    (r.lines document .none).countP (BeginsWith "WARNING:") = r.missingCount := by
  have hm : r.summary.lines.countP (BeginsWith "WARNING:") = 0 := by
    simp [Summary.lines, BeginsWith]
  have hc : (r.checks.map (·.line .none)).countP (BeginsWith "WARNING:") = r.missingCount := by
    rw [List.countP_map, ← countP_not_isPresent]
    exact List.countP_congr fun c _ => by simp [c.beginsWith_warning_iff]
  have hp : ¬ BeginsWith "WARNING:" ("SUCCESS: Document parsed successfully: " ++ document) := by
    simp [BeginsWith]
  have he : ["", "SUCCESS: Document validation complete"].countP (BeginsWith "WARNING:") = 0 := by
    decide
  rw [lines_plain, List.cons_append, List.cons_append, List.countP_cons_of_neg (by simpa using hp),
    List.countP_append, List.countP_append, hm, hc, he, Nat.zero_add, Nat.add_zero]

/-- A human report is read line by line exactly when no text of the document breaks a line. -/
theorem readsByLine_iff {r : Report} (hd : OneLine document)
    (hi : ∀ c ∈ r.checks, OneLine c.identifier) :
    ReadsByLine document r (joinLines (r.lines document .none)) ↔
      OneLine r.summary.versionDisplay ∧ OneLine r.summary.titleDisplay ∧
        OneLine r.summary.descriptionExcerpt := by
  have hl : (∀ line ∈ r.lines document .none, OneLine line) ↔
      OneLine r.summary.versionDisplay ∧ OneLine r.summary.titleDisplay ∧
        OneLine r.summary.descriptionExcerpt := by
    have hs : OneLine ("SUCCESS: Document parsed successfully: " ++ document) :=
      oneLine_append.mpr ⟨oneLine_ofList.mpr (by decide), hd⟩
    rw [lines_plain, List.forall_mem_append, List.forall_mem_append, List.forall_mem_cons,
      List.forall_mem_map, r.summary.oneLine_lines_iff]
    have hc : ∀ c ∈ r.checks, OneLine (c.line .none) := fun c hc => c.oneLine_line (hi c hc)
    have he : ∀ line ∈ ["", "SUCCESS: Document validation complete"], OneLine line := by
      simp only [List.forall_mem_cons]
      exact ⟨oneLine_ofList.mpr (by decide), oneLine_ofList.mpr (by decide), List.forall_mem_nil _⟩
    rw [and_iff_left he, and_iff_left hc, and_iff_right hs]
  rw [← hl]
  constructor
  · rintro ⟨lines, ht, ho, hn, -, -⟩
    refine count_joinLines_eq_length_iff.mp ?_
    rw [ht, count_joinLines_eq_length_iff.mpr ho, hn, length_lines]
  · intro ho
    exact ⟨_, rfl, ho, r.length_lines document, r.human_lines document, r.countP_warning document⟩

end Report

theorem oneLine_none : OneLine (displayScalar none) := by
  decide

theorem displayScalar_some_oneLine_iff {node : Tree} (h : node.isScalar = true) :
    OneLine (displayScalar (some node)) ↔ ∀ s, node = .string s → OneLine s := by
  cases node with
  | null | array | object => cases h
  | string s => simp [displayScalar]
  | bool value =>
    have hv : OneLine (displayScalar (some (.bool value))) := by
      cases value <;> decide
    simp [hv]
  | number n =>
    have hn : OneLine (displayScalar (some (.number n))) := oneLine_numberText n
    simp [hn]

/-- Of the scalars only strings can break a line. -/
theorem displayScalar_oneLine_iff (document : Tree) (place : List String) :
    OneLine (displayScalar (document.scalarAt place)) ↔
      ∀ s, document.lookup place = some (.string s) → OneLine s := by
  rw [Tree.scalarAt]
  cases document.lookup place with
  | none => simp [oneLine_none]
  | some node =>
    by_cases hs : node.isScalar = true
    · simp [Option.filter, hs, displayScalar_some_oneLine_iff hs]
    · have hn (s) : node ≠ .string s := by
        rintro rfl
        exact hs rfl
      simp [Option.filter, hs, hn, oneLine_none]

theorem excerpt_oneLine_iff (document : Tree) (place : List String) :
    OneLine (descriptionExcerpt (document.stringAt place)) ↔
      ∀ s, document.lookup place = some (.string s) → '\n' ∉ s.toList.take 50 := by
  have hd : OneLine ellipsis := by decide
  rw [descriptionExcerpt, oneLine_append, oneLine_ofList, and_iff_left hd, excerptLength,
    Tree.stringAt]
  constructor
  · intro h s hs
    rwa [hs] at h
  · intro h
    split
    · next s hs => exact h s hs
    · decide

theorem ExpectationSet.map_identifier (e : ExpectationSet) :
    e.toList.map (·.identifier) = e.paths ++ e.schemas ++ [e.securityScheme] := by
  simp [toList, Function.comp_def]

/--
The human report of a document is read line by line exactly when there is no line break in its
version, in its title and among the first fifty characters of its description.
-/
theorem human_report_by_line_iff (e : ExpectationSet) (tree : Tree) (hd : OneLine document)
    (he : ∀ identifier ∈ e.paths ++ e.schemas ++ [e.securityScheme], OneLine identifier) :
    ReadsByLine document (validate e tree)
        (OutputFormat.human.formatReport document (validate e tree) ⟨false, permitted⟩) ↔
      (∀ s, tree.lookup ["openapi"] = some (.string s) → OneLine s) ∧
      (∀ s, tree.lookup ["info", "title"] = some (.string s) → OneLine s) ∧
      ∀ s, tree.lookup ["info", "description"] = some (.string s) → '\n' ∉ s.toList.take 50 := by
  have hi : ∀ c ∈ (validate e tree).checks, OneLine c.identifier := by
    intro c hc
    rw [validate_checks] at hc
    obtain ⟨x, hx, rfl⟩ := List.mem_map.mp hc
    exact he x.identifier (e.map_identifier ▸ List.mem_map_of_mem hx)
  rw [formatReport_unwanted, OutputFormat.formatReport, Report.readsByLine_iff hd hi,
    Summary.versionDisplay, Summary.titleDisplay]
  exact and_congr (displayScalar_oneLine_iff _ _)
    (and_congr (displayScalar_oneLine_iff _ _) (excerpt_oneLine_iff _ _))

/-- A title of two lines takes two lines of the report. -/
theorem not_readsByLine_title :
    let e : ExpectationSet := ⟨[], [], "s"⟩
    let tree : Tree := .object [("info", .object [("title", .string "a\nb")])]
    OneLine "openapi.yaml" ∧
      (∀ identifier ∈ e.paths ++ e.schemas ++ [e.securityScheme], OneLine identifier) ∧
      ¬ ReadsByLine "openapi.yaml" (validate e tree)
        (OutputFormat.human.formatReport "openapi.yaml" (validate e tree) ⟨false, true⟩) := by
  intro e tree
  refine ⟨by decide, by decide, ?_⟩
  rw [formatReport_unwanted, OutputFormat.formatReport,
    Report.readsByLine_iff (by decide) (by decide)]
  decide

/-- A line break behind the first fifty characters of a description does not count. -/
theorem human_report_by_line_iff_excerpt :
    let e : ExpectationSet := ⟨["/a"], ["A"], "s"⟩
    let description := "It has fifty characters in front of a line break. \nWARNING: it goes on"
    let tree : Tree := .object [("info", .object [("description", .string description),
      ("title", .bool true)]), ("openapi", .string "WARNING: 3"),
      ("paths", .object [("/a", .null)])]
    OneLine "a.yaml" ∧
      (∀ identifier ∈ e.paths ++ e.schemas ++ [e.securityScheme], OneLine identifier) ∧
      ReadsByLine "a.yaml" (validate e tree)
        (OutputFormat.human.formatReport "a.yaml" (validate e tree) ⟨false, false⟩) := by
  intro e description tree
  have hd : OneLine "a.yaml" := by decide
  have he : ∀ identifier ∈ e.paths ++ e.schemas ++ [e.securityScheme], OneLine identifier := by
    decide
  refine ⟨hd, he, (human_report_by_line_iff e tree hd he).mpr ⟨?_, ?_, ?_⟩⟩
  · intro s hs
    cases hs
    decide
  · intro s hs
    cases hs
  · intro s hs
    cases hs
    decide

end ApiPresence

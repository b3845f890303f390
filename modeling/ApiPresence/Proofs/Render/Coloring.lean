import ApiPresence.Proofs.Basic
import ApiPresence.Proofs.Render.Lines

namespace ApiPresence

namespace Terminal

/-- A character that a terminal shows, or a change of how it shows those behind. -/
inductive Piece where
  | shown (c : Char)
  | style (parameters : List Char)
  deriving DecidableEq

namespace Piece

def shown? : Piece → Option Char
  | shown c => some c
  | style _ => none

def isStyle : Piece → Bool
  | shown _ => false
  | style _ => true

end Piece

def isParameter (c : Char) : Bool := c.isDigit || c = ';'

/-- Behind an escape: the parameters of a change of style, and what stands behind it. -/
def style? (text : List Char) : Option (List Char × List Char) :=
  match text with
  | '[' :: rest =>
    match rest.dropWhile isParameter with
    | 'm' :: behind => some (rest.takeWhile isParameter, behind)
    | _ => none
  | _ => none

theorem style?_append (h : ∀ c ∈ parameters, isParameter c = true) (behind : List Char) :
    style? ('[' :: (parameters ++ 'm' :: behind)) = some (parameters, behind) := by
  have hm : ∀ c ∈ ('m' :: behind).head?, isParameter c = false := by
    intro c hc
    cases hc
    decide
  simp only [style?, takeWhile_append h hm, dropWhile_append h hm]

theorem length_of_style? (h : style? text = some (parameters, behind)) :
    behind.length < text.length := by
  fun_cases style? text with
  | case1 rest others hd =>
    rw [style?, hd] at h
    cases h
    have hl := (rest.dropWhile_sublist isParameter).length_le
    rw [hd, List.length_cons] at hl
    rw [List.length_cons]
    omega
  | case2 rest hd => simp [style?] at h
  | case3 hd => simp [style?] at h

/-- The pieces of a text; an escape in front of anything else is a character like another. -/
def read : List Char → List Piece
  | [] => []
  | '\x1b' :: rest =>
    match _ : style? rest with
    | some (parameters, behind) => .style parameters :: read behind
    | none => .shown '\x1b' :: read rest
  | c :: rest => .shown c :: read rest
termination_by text => text.length
decreasing_by
  · exact Nat.lt_succ_of_lt (length_of_style? (by assumption))
  all_goals exact Nat.lt_succ_self _

theorem read_nil : read [] = [] := by
  rw [read]

theorem read_style (h : ∀ c ∈ parameters, isParameter c = true) (behind : List Char) :
    read ('\x1b' :: '[' :: (parameters ++ 'm' :: behind)) = .style parameters :: read behind := by
  rw [read]
  split
  · next h' =>
    rw [style?_append h] at h'
    cases h'
    rfl
  · next h' =>
    rw [style?_append h] at h'
    cases h'

theorem read_append (h : '\x1b' ∉ text) (behind : List Char) :
    read (text ++ behind) = text.map .shown ++ read behind := by
  induction text with
  | nil => rfl
  | cons c text ih =>
    rw [List.mem_cons, not_or] at h
    rw [List.cons_append, read, ih h.2, List.map_cons, List.cons_append]
    intro hc
    exact h.1 hc.symm

end Terminal

open Terminal (Piece)

/-- A line of a report for people. -/
inductive Line where
  | bare (text : String)
  | status (level : Level) (message : String)

namespace Line

def text (coloring : Coloring) : Line → String
  | bare text => text
  | status level message => statusLine level message coloring

def isStatus : Line → Bool
  | bare _ => false
  | status _ _ => true

/-- How a coloured line is shown: the style is changed in front of its tag, and back behind it. -/
def pieces : Line → List Piece
  | bare text => (text.toList ++ ['\n']).map .shown
  | status level message =>
    .style ('1' :: ';' :: level.colorCode.toList) :: level.tag.toList.map .shown
      ++ .style ['0'] :: (' ' :: message.toList ++ ['\n']).map .shown

end Line

theorem statusLine_toList_colored (level : Level) (message : String) :
    (statusLine level message ⟨true, true⟩).toList =
      '\x1b' :: '[' :: ('1' :: ';' :: level.colorCode.toList ++ 'm' ::
        (level.tag.toList ++ '\x1b' :: '[' :: (['0'] ++ 'm' :: ' ' :: message.toList))) := by
  simp [statusLine, Level.shown, Coloring.isOn]

theorem Level.isParameter_colorCode (level : Level) :
    ∀ c ∈ '1' :: ';' :: level.colorCode.toList, Terminal.isParameter c = true := by
  rw [← List.all_eq_true]
  cases level <;> decide

namespace Line

variable {line : Line} {lines : List Line}

/-- A coloured line is read as it is shown when no escape is in what it says. -/
theorem read_text (h : '\x1b' ∉ (line.text .none).toList) (behind : List Char) :
    Terminal.read ((line.text ⟨true, true⟩).toList ++ ['\n'] ++ behind) =
      line.pieces ++ Terminal.read behind := by
  cases line with
  | bare text =>
    apply Terminal.read_append
    rw [List.mem_append, not_or]
    exact ⟨h, by decide⟩
  | status level message =>
    rw [text, statusLine_toList, List.mem_append, not_or] at h
    have hp : ∀ c ∈ ['0'], Terminal.isParameter c = true := List.forall_mem_singleton.mpr rfl
    have hm : '\x1b' ∉ ' ' :: message.toList ++ ['\n'] := by
      rw [List.mem_append, not_or]
      exact ⟨h.2, by decide⟩
    have hb : (statusLine level message ⟨true, true⟩).toList ++ ['\n'] ++ behind =
        '\x1b' :: '[' :: ('1' :: ';' :: level.colorCode.toList ++ 'm' ::
          (level.tag.toList ++ '\x1b' :: '[' :: (['0'] ++ 'm' ::
            (' ' :: message.toList ++ ['\n'] ++ behind)))) := by
      simp [statusLine_toList_colored]
    rw [text, hb, Terminal.read_style level.isParameter_colorCode, Terminal.read_append h.1,
      Terminal.read_style hp, Terminal.read_append hm]
    simp [pieces]

theorem read_lines (h : ∀ line ∈ lines, '\x1b' ∉ (line.text .none).toList) :
    Terminal.read (joinLines (lines.map (·.text ⟨true, true⟩))).toList =
      lines.flatMap pieces := by
  rw [joinLines_toList]
  induction lines with
  | nil => exact Terminal.read_nil
  | cons line lines ih =>
    obtain ⟨hl, hr⟩ := List.forall_mem_cons.mp h
    rw [List.map_cons, List.flatMap_cons, read_text hl, ih hr, List.flatMap_cons]

theorem shown_pieces (line : Line) :
    line.pieces.filterMap Piece.shown? = (line.text .none).toList ++ ['\n'] := by
  have hs (text : List Char) : (text.map Piece.shown).filterMap Piece.shown? = text := by
    simp [List.filterMap_map, Function.comp_def, Piece.shown?]
  cases line with
  | bare text => exact hs _
  | status level message =>
    simp only [pieces, text, statusLine_toList, List.filterMap_append, List.filterMap_cons, hs,
      Piece.shown?]
    simp

theorem countP_pieces (line : Line) :
    line.pieces.countP Piece.isStyle = if line.isStatus then 2 else 0 := by
  have hs (text : List Char) : (text.map Piece.shown).countP Piece.isStyle = 0 := by
    simp [List.countP_map, Function.comp_def, Piece.isStyle]
  cases line with
  | bare text => exact hs _
  | status level message =>
    simp [pieces, List.countP_append, List.countP_cons, hs, Piece.isStyle, isStatus]

theorem shown_lines (lines : List Line) :
    (lines.flatMap pieces).filterMap Piece.shown? =
      (joinLines (lines.map (·.text .none))).toList := by
  rw [joinLines_toList, List.flatMap_map]
  induction lines with
  | nil => rfl
  | cons line lines ih =>
    rw [List.flatMap_cons, List.filterMap_append, shown_pieces, ih, List.flatMap_cons]

theorem countP_lines (lines : List Line) :
    (lines.flatMap pieces).countP Piece.isStyle = 2 * lines.countP isStatus := by
  induction lines with
  | nil => rfl
  | cons line lines ih =>
    rw [List.flatMap_cons, List.countP_append, countP_pieces, ih, List.countP_cons]
    split <;> omega

end Line

namespace Report

/-- The lines of a report, whatever colours they are shown in. -/
def outline (document : String) (r : Report) : List Line :=
  .status .success ("Document parsed successfully: " ++ document) :: r.summary.lines.map .bare
    ++ r.checks.map (fun c => .status (.ofStatus c.status) c.message)
    ++ [.bare "", .status .success "Document validation complete"]

theorem lines_eq (document : String) (r : Report) (coloring : Coloring) :
    r.lines document coloring = (r.outline document).map (·.text coloring) := by
  simp [lines, outline, Line.text, Check.line, Function.comp_def]

theorem countP_outline (document : String) (r : Report) :
    (r.outline document).countP Line.isStatus = r.checks.length + 2 := by
  simp [outline, List.countP_append, List.countP_cons, List.countP_map, Function.comp_def,
    Line.isStatus]

/-- A coloured report is shown line by line. -/
theorem read_colored {r : Report}
    (h : '\x1b' ∉ (OutputFormat.human.formatReport document r .none).toList) :
    Terminal.read (OutputFormat.human.formatReport document r ⟨true, true⟩).toList =
      (r.outline document).flatMap Line.pieces := by
  rw [OutputFormat.formatReport, r.lines_eq]
  apply Line.read_lines
  intro line hl he
  apply h
  rw [OutputFormat.formatReport, r.lines_eq, mem_joinLines_iff (by decide)]
  exact ⟨_, List.mem_map_of_mem hl, he⟩

theorem formatReport_off (document : String) (r : Report) (coloring : Coloring)
    (h : coloring.wanted = false ∨ coloring.permitted = false) :
    OutputFormat.human.formatReport document r coloring =
      OutputFormat.human.formatReport document r .none := by
  have ho : coloring.isOn = Coloring.none.isOn := by
    rcases h with h | h <;> simp [Coloring.isOn, Coloring.none, h]
  have hl (level : Level) (message : String) :
      statusLine level message coloring = statusLine level message .none := by
    rw [statusLine, statusLine, Level.shown, Level.shown, ho]
  simp only [OutputFormat.formatReport, lines, Check.line, hl]

end Report

/--
Colours only decorate a report for people: without its changes of style the coloured text is the
plain one, and the changes are two for each status line, around its tag. It takes both switches to
have them, and no other format has any.
-/
theorem colors_only_decorate (document : String) (r : Report) :
    ('\x1b' ∉ (OutputFormat.human.formatReport document r .none).toList →
      let pieces := Terminal.read (OutputFormat.human.formatReport document r ⟨true, true⟩).toList
      pieces.filterMap Piece.shown? = (OutputFormat.human.formatReport document r .none).toList ∧
      pieces.countP Piece.isStyle = 2 * (r.checks.length + 2) ∧
      pieces = (r.outline document).flatMap Line.pieces) ∧
    (∀ coloring : Coloring, coloring.wanted = false ∨ coloring.permitted = false →
      OutputFormat.human.formatReport document r coloring =
        OutputFormat.human.formatReport document r .none) ∧
    ∀ format ≠ OutputFormat.human, ∀ coloring,
      format.formatReport document r coloring = format.formatReport document r .none := by
  refine ⟨?_, r.formatReport_off document, ?_⟩
  · intro h pieces
    have hp : pieces = (r.outline document).flatMap Line.pieces := Report.read_colored h
    refine ⟨?_, ?_, hp⟩
    · rw [hp, Line.shown_lines, OutputFormat.formatReport, r.lines_eq]
    · rw [hp, Line.countP_lines, r.countP_outline]
  · intro format hf coloring
    cases format with
    | human => exact absurd rfl hf
    | json | jsonPretty | yaml => rfl

/-- Parts of sequences in the texts of a report do not matter. -/
theorem colors_only_decorate_lookalikes :
    let r : Report := ⟨⟨some (.string "[0m\n[1;32mSUCCESS:"), none, "m", 0, 0, 0, 0⟩,
      [⟨.path, "[31m", .missing⟩]⟩
    '\x1b' ∉ (OutputFormat.human.formatReport ";1m" r .none).toList ∧
      (Terminal.read (OutputFormat.human.formatReport ";1m" r ⟨true, true⟩).toList).filterMap
        Piece.shown? = (OutputFormat.human.formatReport ";1m" r .none).toList ∧
      (Terminal.read (OutputFormat.human.formatReport ";1m" r ⟨true, true⟩).toList).countP
        Piece.isStyle = 6 ∧
      OutputFormat.human.formatReport ";1m" r ⟨true, false⟩ =
        OutputFormat.human.formatReport ";1m" r .none ∧
      OutputFormat.yaml.formatReport ";1m" r ⟨true, true⟩ =
        OutputFormat.yaml.formatReport ";1m" r .none := by
  intro r
  have hl : ∀ line ∈ r.lines ";1m" .none, '\x1b' ∉ line.toList := by
    decide
  have h : '\x1b' ∉ (OutputFormat.human.formatReport ";1m" r .none).toList := by
    rw [OutputFormat.formatReport, mem_joinLines_iff (by decide)]
    rintro ⟨line, hm, he⟩
    exact hl line hm he
  obtain ⟨hs, ho, hf⟩ := colors_only_decorate ";1m" r
  exact ⟨h, (hs h).1, (hs h).2.1, ho _ (.inr rfl), hf _ (by decide) _⟩

end ApiPresence

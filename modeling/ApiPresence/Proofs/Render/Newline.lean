import ApiPresence.Proofs.Json.Grammar
import ApiPresence.Proofs.Render.Human
import ApiPresence.Proofs.Writer

namespace ApiPresence

/-- A text that ends in one newline, and in no more than one. -/
def EndsOnce (text : List Char) : Prop := ∃ front c, text = front ++ [c, '\n'] ∧ c ≠ '\n'

theorem EndsOnce.append (h : EndsOnce text) (front : List Char) : EndsOnce (front ++ text) := by
  obtain ⟨before, c, rfl, hc⟩ := h
  exact ⟨front ++ before, c, (List.append_assoc ..).symm, hc⟩

theorem EndsOnce.cons (h : EndsOnce text) (c : Char) : EndsOnce (c :: text) := h.append [c]

/-- A text that ends in one newline is left as it is. -/
theorem EndsOnce.endLine (h : EndsOnce text.toList) : EndsOnce (endLine text).toList := by
  have hl : text.toList.getLast? = some '\n' := by
    obtain ⟨front, c, ht, -⟩ := h
    simp [ht]
  rwa [ApiPresence.endLine, if_pos hl]

theorem endLine_of_last (h : text.toList = front ++ [c]) (hc : c ≠ '\n') :
    endLine text = text ++ "\n" := by
  rw [endLine, if_neg]
  simpa [h] using hc

theorem endsOnce_of_last (h : text.toList = front ++ [c]) (hc : c ≠ '\n') :
    EndsOnce (endLine text).toList := by
  rw [endLine_of_last h hc]
  exact ⟨front, c, by simp [h], hc⟩

section Human

theorem endsOnce_joinLines (lines : List String) (h : line.toList = front ++ [c]) (hc : c ≠ '\n') :
    EndsOnce (joinLines (lines ++ [line])).toList := by
  rw [joinLines_toList, List.flatMap_append, List.flatMap_singleton]
  apply EndsOnce.append
  exact ⟨front, c, by simp [h], hc⟩

/-- The last line of a report for people ends the same way in all colours. -/
theorem endsOnce_lines (document : String) (r : Report) (coloring : Coloring) :
    EndsOnce (joinLines (r.lines document coloring)).toList := by
  have hl : (statusLine .success "Document validation complete" coloring).toList =
      (Level.success.shown coloring).toList ++ " Document validation complet".toList ++ ['e'] := by
    simp [statusLine]
  have hr : r.lines document coloring =
      (statusLine .success ("Document parsed successfully: " ++ document) coloring ::
        r.summary.lines ++ r.checks.map (·.line coloring) ++ [""]) ++
          [statusLine .success "Document validation complete" coloring] := by
    simp [Report.lines]
  rw [hr]
  exact endsOnce_joinLines _ hl (by decide)

end Human

section Yaml

open Yaml (nodeLines itemLines memberLines entryLines spaces isSimpleKey simpleKey stringLines)

variable {indent : Nat} {key : String}

theorem memberLines_append (indent : Nat) (members : List (String × Tree)) (key : String)
    (value : Tree) : memberLines indent (members ++ [(key, value)]) =
      memberLines indent members ++ (spaces indent ++ entryLines indent key value) := by
  induction members with
  | nil => simp [memberLines]
  | cons member members ih =>
    obtain ⟨first, node⟩ := member
    simp [memberLines, ih]

theorem itemLines_append (indent : Nat) (items : List Tree) (item : Tree) :
    itemLines indent (items ++ [item]) =
      itemLines indent items ++ (spaces indent ++ '-' :: ' ' :: nodeLines (indent + 2) item) := by
  induction items with
  | nil => simp [itemLines]
  | cons item items ih => simp [itemLines, ih]

/-- An object ends as its last member does. -/
theorem endsOnce_object (h : EndsOnce (entryLines indent key value))
    (members : List (String × Tree)) :
    EndsOnce (nodeLines indent (.object (members ++ [(key, value)]))) := by
  cases members with
  | nil => simpa [nodeLines, memberLines] using h
  | cons member members =>
    obtain ⟨first, node⟩ := member
    rw [List.cons_append, nodeLines, memberLines_append]
    exact ((h.append _).append _).append _

/-- An array behind a key ends as its last item does. -/
theorem endsOnce_array (hk : isSimpleKey key = true) (h : EndsOnce (nodeLines (indent + 2) item))
    (items : List Tree) : EndsOnce (entryLines indent key (.array (items ++ [item]))) := by
  cases items with
  | nil =>
    rw [List.nil_append, entryLines, if_pos hk, itemLines, List.append_nil]
    exact ((h.cons _).cons _).append _
  | cons first items =>
    rw [List.cons_append, entryLines, if_pos hk, itemLines_append]
    exact ((((h.cons _).cons _).append _).append _).append _

/-- A check ends in its status, which is one plain word. -/
theorem endsOnce_check (indent : Nat) (c : Check) : EndsOnce (nodeLines indent c.toTree) := by
  have hk : isSimpleKey "status" = true := by decide
  have hp : Yaml.styleOf c.status.name.toList = .plain := by
    cases c.status <;> decide
  have hn : ∃ front last, c.status.name.toList = front ++ [last] ∧ last ≠ '\n' := by
    cases c.status with
    | present => exact ⟨"presen".toList, 't', rfl, by decide⟩
    | missing => exact ⟨"missin".toList, 'g', rfl, by decide⟩
  obtain ⟨front, last, hn, hl⟩ := hn
  have hs : EndsOnce (stringLines (indent + 2) c.status.name) := by
    rw [stringLines, hp]
    exact ⟨front, last, by simp [hn], hl⟩
  have he : EndsOnce (entryLines indent "status" (.string c.status.name)) := by
    rw [entryLines, if_pos hk, nodeLines]
    · exact ((hs.cons _).cons _).append _
    · rintro _ _ ⟨⟩
    · rintro _ _ _ ⟨⟩
  exact endsOnce_object he
    [("category", .string c.category.name), ("identifier", .string c.identifier)]

theorem endsOnce_checks (indent : Nat) (checks : List Check) :
    EndsOnce (entryLines indent "checks" (checksTree checks)) := by
  have hk : isSimpleKey "checks" = true := by decide
  rcases List.eq_nil_or_concat' checks with rfl | ⟨front, c, rfl⟩
  · have hn : EndsOnce (nodeLines (indent + 2) (.array [])) :=
      ⟨['['], ']', by rw [nodeLines]; rfl, by decide⟩
    rw [checksTree, List.map_nil, entryLines, if_pos hk]
    · exact ((hn.cons _).cons _).append _
    · rintro _ _ ⟨⟩
    · rintro _ _ _ ⟨⟩
  · rw [checksTree, List.map_append, List.map_singleton]
    exact endsOnce_array hk (endsOnce_check _ c) _

/-- In YAML a report ends in its last check, so that no text of the document can end it. -/
theorem endsOnce_envelope (document : String) (r : Report) :
    EndsOnce (nodeLines 0 (r.envelope document)) := by
  have hm : r.envelope document = .object ([
      ("document", .string document),
      ("complete", .bool r.isComplete),
      ("present", countTree r.presentCount),
      ("missing", countTree r.missingCount),
      ("summary", r.summary.toTree)] ++ [("checks", checksTree r.checks)]) := rfl
  rw [hm]
  exact endsOnce_object (endsOnce_checks 0 r.checks) _

end Yaml

/-- Objects end in a brace in either layout. -/
theorem write_object (layout : Json.Layout) (level : Nat) (members : List (String × Tree)) :
    ∃ front, Json.write layout level (.object members) = front ++ ['}'] := by
  cases members with
  | nil => exact ⟨['{'], rfl⟩
  | cons member members => exact ⟨_, by rw [Json.write]⟩

theorem print_envelope (layout : Json.Layout) (document : String) (r : Report) :
    ∃ front, (Json.print layout (r.envelope document)).toList = front ++ ['}'] := by
  rw [Json.print, String.toList_ofList]
  exact write_object layout 0 _

/-- What a writer puts out for a report ends in exactly one newline. -/
theorem endsOnce_reportText (w : Writer) (document : String) (r : Report) :
    EndsOnce (w.reportText document r).toList := by
  have hj (layout : Json.Layout) :
      EndsOnce (endLine (Json.print layout (r.envelope document))).toList := by
    obtain ⟨front, hp⟩ := print_envelope layout document r
    exact endsOnce_of_last hp (by decide)
  rw [Writer.reportText, reportLines]
  cases w.format with
  | human => exact (endsOnce_lines document r w.coloring).endLine
  | json => exact hj .compact
  | jsonPretty => exact hj .pretty
  | yaml =>
    have hp : (Yaml.print (r.envelope document)).toList =
        Yaml.nodeLines 0 (r.envelope document) := by
      rw [Yaml.print, String.toList_ofList]
      exact nofun
    have he : EndsOnce (Yaml.print (r.envelope document)).toList :=
      hp ▸ endsOnce_envelope document r
    exact he.endLine

/-- In compact JSON a report is one line, which is a complete text. -/
theorem reportText_json (coloring : Coloring) (sink : Sink) (document : String) (r : Report) :
    ∃ line, (⟨.json, coloring, sink⟩ : Writer).reportText document r = line ++ "\n" ∧
      Json.IsText line.toList := by
  obtain ⟨front, hp⟩ := print_envelope .compact document r
  have ht : (⟨.json, coloring, sink⟩ : Writer).reportText document r =
      endLine (Json.print .compact (r.envelope document)) := rfl
  refine ⟨Json.print .compact (r.envelope document), ?_, ?_⟩
  · rw [ht, endLine_of_last hp (by decide)]
  · rw [Json.print, String.toList_ofList]
    exact Json.isText_write 0 _

theorem Json.Solid.oneLine (h : Json.Solid s.toList) : OneLine s := by
  intro hn
  exact absurd (h _ hn) (by decide)

namespace Writer

/-- Reports in JSON come as lines, one for each of them. -/
theorem octets_json (coloring : Coloring) (sink : Sink) (reports : List (String × Report)) :
    ∃ lines : List String, (∀ line ∈ lines, Json.IsText line.toList) ∧
      lines.map (· ++ "\n") =
        reports.map (fun p => (⟨.json, coloring, sink⟩ : Writer).reportText p.1 p.2) ∧
      octets .json coloring (reports.map fun p => .report p.1 p.2) =
        (joinLines lines).toUTF8.toList := by
  induction reports with
  | nil =>
    have he : (joinLines []).toUTF8.toList = [] := by
      simp [joinLines, ByteArray.toList, toList_loop_eq]
    exact ⟨[], List.forall_mem_nil _, rfl, he.symm⟩
  | cons p reports ih =>
    obtain ⟨lines, hj, hm, ho⟩ := ih
    obtain ⟨line, hp, ht⟩ := reportText_json coloring sink p.1 p.2
    have hs : Step.octets .json coloring (.report p.1 p.2) = (line ++ "\n").toUTF8.toList :=
      congrArg (fun text => text.toUTF8.toList) hp
    refine ⟨line :: lines, List.forall_mem_cons.mpr ⟨ht, hj⟩, ?_, ?_⟩
    · rw [List.map_cons, List.map_cons, hm, hp]
    · rw [List.map_cons, octets_cons, ho, hs, joinLines_cons, toUTF8_append (line ++ "\n")]

end Writer

/--
What a writer puts out for a report ends in exactly one newline. In compact JSON there is no other
control in it, so that reports come as so many lines, each of them a complete text.
-/
theorem reports_end_in_one_newline :
    (∀ (w : Writer) document r, w.report document r = w.write (w.reportText document r) ∧
      EndsOnce (w.reportText document r).toList) ∧
    ∀ coloring sink (reports : List (String × Report)), ∃ lines : List String,
      (∀ line ∈ lines, Json.Solid line.toList ∧ Json.IsText line.toList) ∧
      lines.map (· ++ "\n") =
        reports.map (fun p => (⟨.json, coloring, sink⟩ : Writer).reportText p.1 p.2) ∧
      (joinLines lines).toList.count '\n' = reports.length ∧
      (sink.room = none →
        Writer.run ⟨.json, coloring, sink⟩ (reports.map fun p => .report p.1 p.2) =
          (List.replicate reports.length (.ok ()), ⟨.json, coloring,
            sink.written ++ (joinLines lines).toUTF8.toList, none,
            sink.flushes + reports.length⟩)) := by
  refine ⟨fun w document r => ⟨rfl, endsOnce_reportText w document r⟩, ?_⟩
  intro coloring sink reports
  obtain ⟨lines, hj, hm, ho⟩ := Writer.octets_json coloring sink reports
  have hs : ∀ line ∈ lines, OneLine line := fun line hl => (hj line hl).solid.oneLine
  have hl : lines.length = reports.length := by
    simpa using congrArg List.length hm
  refine ⟨lines, fun line hl => ⟨(hj line hl).solid, hj line hl⟩, hm, ?_, ?_⟩
  · rw [count_joinLines_eq_length_iff.mpr hs, hl]
  · intro hr
    obtain ⟨written, room, flushes⟩ := sink
    cases hr
    rw [Writer.run_eq_endless, ho, List.length_map]

/-- Newlines at the end of texts do not show at the end of a report, or as lines. -/
theorem reports_end_in_one_newline_broken :
    let r : Report := ⟨⟨some (.string "1\n"), some (.string "a\n\n"), "b\n", 0, 0, 0, 0⟩, []⟩
    EndsOnce ((⟨.yaml, .none, .empty none⟩ : Writer).reportText "c\n" r).toList ∧
      ∃ line other, Json.IsText line.toList ∧ (joinLines [line, other]).toList.count '\n' = 2 ∧
        (Writer.run ⟨.json, .none, .empty none⟩ [.report "c\n" r, .report "d" r]).2.sink.written =
          (joinLines [line, other]).toUTF8.toList := by
  intro r
  obtain ⟨he, hj⟩ := reports_end_in_one_newline
  obtain ⟨lines, ht, hm, hc, hr⟩ := hj .none (.empty none) [("c\n", r), ("d", r)]
  cases lines with
  | nil => cases hm
  | cons line rest =>
    obtain ⟨other, rfl⟩ : ∃ other, rest = [other] := by
      have hl := congrArg List.length hm
      simpa [List.length_eq_one_iff] using hl
    refine ⟨(he _ _ r).2, line, other, (ht line List.mem_cons_self).2, hc, ?_⟩
    exact congrArg (·.2.sink.written) (hr rfl)

end ApiPresence

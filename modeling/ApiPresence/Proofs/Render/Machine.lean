import ApiPresence.Description
import ApiPresence.Proofs.Json.RoundTrip
import ApiPresence.Proofs.Validation
import ApiPresence.Render.Format

namespace ApiPresence

open ApiPresence.Tree (Readable)

variable {d : Tree}

/-- Counts are words of 64 bits; no list that a memory holds is longer. -/
structure Report.CountsFit (r : Report) : Prop where
  checks : r.checks.length < 0x10000000000000000
  servers : r.summary.serverCount < 0x10000000000000000
  tags : r.summary.tagCount < 0x10000000000000000
  paths : r.summary.pathCount < 0x10000000000000000
  schemas : r.summary.schemaCount < 0x10000000000000000

/-- A tree that holds a count exactly. -/
def Tree.IsCount (t : Tree) (n : Nat) : Prop := ∃ inRange, t = .number (.whole n inRange)

theorem countTree_eq_whole (h : n < 0x10000000000000000) :
    ∃ inRange, countTree n = .number (.whole n inRange) := by
  have hn : -0x8000000000000000 ≤ (n : Int) ∧ (n : Int) < 0x10000000000000000 := by omega
  refine ⟨hn, ?_⟩
  rw [countTree, Number.ofNat, Number.ofInt, dif_pos hn]

theorem isCount_countTree_iff (h : n < 0x10000000000000000) :
    (countTree n).IsCount m ↔ m = n := by
  obtain ⟨hn, he⟩ := countTree_eq_whole h
  rw [he]
  constructor
  · rintro ⟨hm, hw⟩
    have hi := Number.whole.inj (Tree.number.inj hw)
    omega
  · rintro rfl
    exact ⟨hn, rfl⟩

theorem readable_countTree (h : n < 0x10000000000000000) : Readable depth (countTree n) := by
  obtain ⟨hn, he⟩ := countTree_eq_whole h
  exact he ▸ .whole

theorem sorted_countTree (n : Nat) : (countTree n).sorted = countTree n := rfl

theorem readable_scalarAt (hf : ∀ x, d.lookup segments ≠ some (.number (.float x))) :
    Readable depth ((d.scalarAt segments).getD .null) := by
  rw [Tree.scalarAt]
  cases hl : d.lookup segments with
  | none => exact .null
  | some tree =>
    cases tree with
    | null | array | object => exact .null
    | bool => exact .bool
    | string => exact .string
    | number n =>
      cases n with
      | whole => exact .whole
      | float x => exact absurd hl (hf x)

theorem sorted_scalarAt :
    ((d.scalarAt segments).getD .null).sorted = (d.scalarAt segments).getD .null := by
  rw [Tree.scalarAt]
  cases d.lookup segments with
  | none => rfl
  | some tree => cases tree <;> rfl

theorem Check.readable_toTree (c : Check) : Readable (depth + 1) c.toTree := by
  refine .object ?_
  simp only [List.forall_mem_cons]
  exact ⟨.string, .string, .string, nofun⟩

theorem Check.sorted_toTree (c : Check) : c.toTree.sorted = c.toTree := by
  simp only [toTree, Tree.sorted, Tree.sortedMembers, Tree.ofEntries, List.foldl_cons,
    List.foldl_nil, Tree.setMember, String.reduceEq, String.reduceLT, reduceIte]

/-- The serialized summary with its keys in order. -/
def Summary.sortedTree (s : Summary) : Tree :=
  .object [
    ("description_excerpt", .string s.descriptionExcerpt),
    ("openapi_version", s.version.getD .null),
    ("path_count", countTree s.pathCount),
    ("schema_count", countTree s.schemaCount),
    ("server_count", countTree s.serverCount),
    ("tag_count", countTree s.tagCount),
    ("title", s.title.getD .null)]

theorem sorted_summary : (summarize d).toTree.sorted = (summarize d).sortedTree := by
  simp only [Summary.toTree, Summary.sortedTree, Tree.sorted, Tree.sortedMembers, Tree.ofEntries,
    List.foldl_cons, List.foldl_nil, Tree.setMember, String.reduceEq, String.reduceLT, reduceIte,
    sorted_countTree, summarize, sorted_scalarAt]

theorem sorted_envelope : ((validate e d).envelope path).sorted = .object [
      ("checks", checksTree (validate e d).checks),
      ("complete", .bool (validate e d).isComplete),
      ("document", .string path),
      ("missing", countTree (validate e d).missingCount),
      ("present", countTree (validate e d).presentCount),
      ("summary", (summarize d).sortedTree)] := by
  have hc : (checksTree (validate e d).checks).sorted = checksTree (validate e d).checks := by
    simp [checksTree, Tree.sorted, Tree.sortedItems_eq, Check.sorted_toTree]
  have hs : (validate e d).summary.toTree.sorted = (summarize d).sortedTree := sorted_summary
  simp only [Report.envelope, Report.members, List.cons_append, List.nil_append, Tree.sorted,
    Tree.sortedMembers, Tree.ofEntries, List.foldl_cons, List.foldl_nil, Tree.setMember,
    String.reduceEq, String.reduceLT, reduceIte, sorted_countTree, hc, hs]

theorem readable_envelope
    (hv : ∀ x, d.lookup ["openapi"] ≠ some (.number (.float x)))
    (ht : ∀ x, d.lookup ["info", "title"] ≠ some (.number (.float x)))
    (hc : (validate e d).CountsFit) :
    Readable 127 ((validate e d).envelope path) := by
  have hp : (validate e d).presentCount < 0x10000000000000000 :=
    Nat.lt_of_le_of_lt List.countP_le_length hc.checks
  have hm : (validate e d).missingCount < 0x10000000000000000 :=
    Nat.lt_of_le_of_lt (Nat.sub_le _ _) hc.checks
  have hs : Readable 126 (summarize d).toTree := by
    refine .object ?_
    simp only [List.forall_mem_cons]
    exact ⟨readable_scalarAt hv, readable_scalarAt ht, .string, readable_countTree hc.servers,
      readable_countTree hc.tags, readable_countTree hc.paths, readable_countTree hc.schemas, nofun⟩
  have hk : Readable 126 (checksTree (validate e d).checks) := by
    refine .array fun item hi => ?_
    obtain ⟨c, -, rfl⟩ := List.mem_map.mp hi
    exact c.readable_toTree
  refine .object ?_
  simp only [Report.members, List.cons_append, List.nil_append, List.forall_mem_cons]
  exact ⟨.string, .bool, readable_countTree hp, readable_countTree hm, hs, hk, nofun⟩

/-- The items of the array of checks are told apart by what they say of their status. -/
theorem countP_status (checks : List Check) (status : Status) :
    (checks.map (·.toTree)).countP (fun item => item.get? "status" = some (.string status.name)) =
      checks.countP (·.status = status) := by
  rw [List.countP_map]
  refine List.countP_congr fun c _ => ?_
  have hs : c.toTree.get? "status" = some (.string c.status.name) := rfl
  cases hc : c.status <;> cases status <;> simp [hs, hc, Status.name]

theorem missingCount_eq (r : Report) : r.missingCount = r.checks.countP (·.status = .missing) := by
  have hl := r.checks.length_eq_countP_add_countP (·.status.isPresent)
  have hm : r.checks.countP (fun c => ¬ c.status.isPresent = true) =
      r.checks.countP (·.status = .missing) := by
    refine List.countP_congr fun c _ => ?_
    cases hc : c.status <;> simp [Status.isPresent]
  rw [Report.missingCount, Report.presentCount, ← hm]
  omega

/--
A report for machines is read back, from either layout as the same tree: the document, the summary,
the checks in their order, and the numbers of those very checks that are present and missing.
-/
theorem machine_report_reads_back (path source : String) (coloring : Coloring)
    (hv : ∀ x, d.lookup ["openapi"] ≠ some (.number (.float x)))
    (ht : ∀ x, d.lookup ["info", "title"] ≠ some (.number (.float x)))
    (hc : (validate e d).CountsFit) :
    ∃ tree checks complete missing present,
      parseJson source (OutputFormat.json.formatReport path (validate e d) coloring) = .ok tree ∧
      parseJson source (OutputFormat.jsonPretty.formatReport path (validate e d) coloring) =
        .ok tree ∧
      tree = .object [
        ("checks", .array checks),
        ("complete", .bool complete),
        ("document", .string path),
        ("missing", missing),
        ("present", present),
        ("summary", (validate e d).summary.sortedTree)] ∧
      checks = (validate e d).checks.map (fun c => .object [
        ("category", .string c.category.name),
        ("identifier", .string c.identifier),
        ("status", .string c.status.name)]) ∧
      missing.IsCount (checks.countP fun c => c.get? "status" = some (.string "missing")) ∧
      present.IsCount (checks.countP fun c => c.get? "status" = some (.string "present")) ∧
      (complete = true ↔ missing.IsCount 0) := by
  have hp : (validate e d).presentCount < 0x10000000000000000 :=
    Nat.lt_of_le_of_lt List.countP_le_length hc.checks
  have hm : (validate e d).missingCount < 0x10000000000000000 :=
    Nat.lt_of_le_of_lt (Nat.sub_le _ _) hc.checks
  have hr (layout : Json.Layout) :
      parseJson source (Json.print layout ((validate e d).envelope path)) =
        .ok ((validate e d).envelope path).sorted := by
    rw [parseJson, Json.parse_print (readable_envelope hv ht hc)]
    rfl
  refine ⟨_, _, _, _, _, hr .compact, hr .pretty, sorted_envelope, rfl, ?_, ?_, ?_⟩
  · rw [isCount_countTree_iff hm, missingCount_eq]
    exact countP_status _ .missing
  · rw [isCount_countTree_iff hp]
    exact countP_status _ .present
  · rw [isCount_countTree_iff hm, Report.isComplete, beq_iff_eq, eq_comm]

/-- Quotes, control characters and a rest of a line in a path, a title and a description. -/
theorem machine_report_reads_back_escaped :
    let e : ExpectationSet := ⟨["/a\"b", "\x01"], [], "😀"⟩
    let d : Tree := .object [
      ("info", .object [("description", .string "\x7f\r\n"), ("title", .string "\\\n")]),
      ("openapi", .number (.ofInt (-3))), ("paths", .object [("/a\"b", .null)])]
    (∀ x, d.lookup ["openapi"] ≠ some (.number (.float x))) ∧
      (∀ x, d.lookup ["info", "title"] ≠ some (.number (.float x))) ∧
      (validate e d).CountsFit ∧
      ∃ tree,
        parseJson "-" (OutputFormat.json.formatReport "a\t\"" (validate e d) .none) = .ok tree ∧
        parseJson "-" (OutputFormat.jsonPretty.formatReport "a\t\"" (validate e d) .none) =
          .ok tree ∧
        tree.get? "document" = some (.string "a\t\"") := by
  intro e d
  have hv : ∀ x, d.lookup ["openapi"] ≠ some (.number (.float x)) := by
    intro x h
    cases h
  have ht : ∀ x, d.lookup ["info", "title"] ≠ some (.number (.float x)) := by
    intro x h
    cases h
  have hc : (validate e d).CountsFit := by constructor <;> decide
  obtain ⟨tree, _, _, _, _, hj, hp, rfl, -⟩ := machine_report_reads_back "a\t\"" "-" .none hv ht hc
  exact ⟨hv, ht, hc, _, hj, hp, rfl⟩

end ApiPresence

import ApiPresence.Proofs.Basic
import ApiPresence.Proofs.Members
import ApiPresence.Proofs.Render.Machine
import ApiPresence.Report.Decode

namespace ApiPresence

open Decode

/-- A summary as decoding gives it: nothing stands for null, and counts are words of 64 bits. -/
structure Summary.WellFormed (s : Summary) : Prop where
  version : s.version ≠ some .null
  title : s.title ≠ some .null
  servers : s.serverCount < 0x10000000000000000
  tags : s.tagCount < 0x10000000000000000
  paths : s.pathCount < 0x10000000000000000
  schemas : s.schemaCount < 0x10000000000000000

def Summary.members (s : Summary) : List (String × Tree) := [
  ("openapi_version", s.version.getD .null),
  ("title", s.title.getD .null),
  ("description_excerpt", .string s.descriptionExcerpt),
  ("server_count", countTree s.serverCount),
  ("tag_count", countTree s.tagCount),
  ("path_count", countTree s.pathCount),
  ("schema_count", countTree s.schemaCount)]

/-- A report as a value in memory, where objects keep their keys in order. -/
def Report.value (r : Report) : Tree :=
  .ofEntries [("summary", .ofEntries r.summary.members), ("checks", checksTree r.checks)]

namespace Decode

theorem fault?_of_ok {decode : Tree → Except Mismatch α} (h : decode tree = .ok a) :
    fault? decode tree = none := by
  rw [fault?, h]

theorem fault?_string (value : String) : fault? string (.string value) = none := rfl

/-- No member is at fault. -/
theorem checkMembers_eq_ok {faults : String → Tree → Option Mismatch}
    (h : ∀ m ∈ members, faults m.1 m.2 = none) : checkMembers faults members = .ok () := by
  induction members with
  | nil => rfl
  | cons m rest ih =>
    rw [List.forall_mem_cons] at h
    rw [checkMembers, h.1]
    exact ih h.2

theorem field_eq (decode : Tree → Except Mismatch α) (members : List (String × Tree))
    (name : String) : field decode members name =
      (Tree.member? name members).elim (.error (.missingField name)) decode := by
  rw [field]
  cases Tree.member? name members <;> rfl

theorem count_countTree (h : n < 0x10000000000000000) : count (countTree n) = .ok n := by
  obtain ⟨hn, he⟩ := countTree_eq_whole h
  rw [he, count, if_pos (Int.natCast_nonneg n), Int.toNat_natCast]

theorem optional_getD (h : value ≠ some .null) : optional (value.getD .null) = value := by
  cases value with
  | none => rfl
  | some tree =>
    cases tree with
    | null => exact absurd rfl h
    | bool | number | string | array | object => rfl

theorem items_map {item : Tree → Except Mismatch α} {encode : α → Tree}
    (h : ∀ a, item (encode a) = .ok a) (values : List α) :
    items item (values.map encode) = .ok values := by
  induction values with
  | nil => rfl
  | cons value values ih => rw [List.map_cons, items, h, ok_bind, ih, ok_bind]

theorem count_lt (h : count tree = .ok n) : n < 0x10000000000000000 := by
  cases tree with
  | number number =>
    cases number with
    | whole value inRange =>
      rw [count] at h
      split at h
      · cases h
        omega
      · cases h
    | float value => cases h
  | null | bool | string | array | object => cases h

theorem optional_ne_null (tree : Tree) : optional tree ≠ some .null := by
  cases tree with
  | null => simp [optional]
  | bool | number | string | array | object => simp [optional]

theorem bind_optional_ne_null (value : Option Tree) : value.bind optional ≠ some .null := by
  cases value with
  | none => simp
  | some tree => exact optional_ne_null tree

theorem field_eq_ok {decode : Tree → Except Mismatch α} (h : field decode members name = .ok a) :
    ∃ tree, decode tree = .ok a := by
  rw [field] at h
  split at h
  · exact ⟨_, h⟩
  · cases h

theorem entry_eq_ok {decode : Tree → Except Mismatch α}
    (h : entry decode trees index expected = .ok a) : ∃ tree, decode tree = .ok a := by
  rw [entry] at h
  split at h
  · exact ⟨_, h⟩
  · cases h

end Decode

theorem Category.ofTree_name (c : Category) : ofTree (.string c.name) = .ok c := by
  cases c <;> rfl

theorem Status.ofTree_name (s : Status) : ofTree (.string s.name) = .ok s := by
  cases s <;> rfl

theorem Check.ofTree_toTree (c : Check) : ofTree c.toTree = .ok c := by
  rw [toTree, ofTree, checkMembers_eq_ok, ok_bind]
  · simp only [field_eq, Tree.member?, String.reduceEq, ↓reduceIte, Option.elim_some,
      c.category.ofTree_name, Decode.string, c.status.ofTree_name, ok_bind]
  · simp [ofTree.faults, fault?_of_ok c.category.ofTree_name, fault?_of_ok c.status.ofTree_name,
      fault?_string]

namespace Summary

variable {s : Summary}

theorem faults_count (hk : key ∈ ["server_count", "tag_count", "path_count", "schema_count"])
    (h : count tree = .ok n) : ofTree.faults key tree = none := by
  have hn : key ≠ "description_excerpt" := by
    rintro rfl
    simp at hk
  rw [ofTree.faults, if_neg hn, if_pos hk]
  exact fault?_of_ok h

/-- A summary is decoded from its members in any order. -/
theorem ofTree_of_perm {version title servers tags paths schemas : Tree}
    {members : List (String × Tree)} (hp : members.Perm [
      ("openapi_version", version),
      ("title", title),
      ("description_excerpt", .string s.descriptionExcerpt),
      ("server_count", servers),
      ("tag_count", tags),
      ("path_count", paths),
      ("schema_count", schemas)])
    (version_eq : optional version = s.version) (title_eq : optional title = s.title)
    (servers_eq : count servers = .ok s.serverCount) (tags_eq : count tags = .ok s.tagCount)
    (paths_eq : count paths = .ok s.pathCount) (schemas_eq : count schemas = .ok s.schemaCount) :
    ofTree (.object members) = .ok s := by
  have hf : checkMembers ofTree.faults members = .ok () := by
    refine checkMembers_eq_ok fun m hm => ?_
    revert m
    simp only [hp.mem_iff, List.forall_mem_cons]
    exact ⟨rfl, rfl, rfl, faults_count (by decide) servers_eq, faults_count (by decide) tags_eq,
      faults_count (by decide) paths_eq, faults_count (by decide) schemas_eq, List.forall_mem_nil _⟩
  have hn : ["openapi_version", "title", "description_excerpt", "server_count", "tag_count",
      "path_count", "schema_count"].Nodup := by decide
  have hm := Tree.member?_of_perm hp hn
  simp only [List.forall_mem_cons] at hm
  obtain ⟨hv, ht, he, hs, hg, hq, hc, -⟩ := hm
  rw [ofTree, hf, ok_bind]
  simp only [field_eq, hv, ht, he, hs, hg, hq, hc, Option.elim_some, Option.bind_some,
    Decode.string, ok_bind, version_eq, title_eq, servers_eq, tags_eq, paths_eq, schemas_eq]

theorem nodup_members (s : Summary) : (s.members.map Prod.fst).Nodup := by
  show ["openapi_version", "title", "description_excerpt", "server_count", "tag_count",
    "path_count", "schema_count"].Nodup
  decide

theorem ofTree_of_members {members : List (String × Tree)} (h : s.WellFormed)
    (hp : members.Perm s.members) : ofTree (.object members) = .ok s :=
  ofTree_of_perm hp (optional_getD h.version) (optional_getD h.title) (count_countTree h.servers)
    (count_countTree h.tags) (count_countTree h.paths) (count_countTree h.schemas)

/-- Whatever form a summary is decoded from. -/
theorem wellFormed_of_ofTree (h : ofTree tree = .ok s) : s.WellFormed := by
  cases tree with
  | null | bool | number | string => cases h
  | array trees =>
    simp only [ofTree, bind_eq_ok_iff] at h
    obtain ⟨version, hv, title, ht, excerpt, -, servers, hs, tags, hg, paths, hp, schemas, hc, -, -,
      he⟩ := h
    cases he
    obtain ⟨v, hv⟩ := entry_eq_ok hv
    obtain ⟨t, ht⟩ := entry_eq_ok ht
    obtain ⟨_, hs⟩ := entry_eq_ok hs
    obtain ⟨_, hg⟩ := entry_eq_ok hg
    obtain ⟨_, hp⟩ := entry_eq_ok hp
    obtain ⟨_, hc⟩ := entry_eq_ok hc
    cases hv
    cases ht
    exact ⟨optional_ne_null v, optional_ne_null t, count_lt hs, count_lt hg, count_lt hp,
      count_lt hc⟩
  | object members =>
    simp only [ofTree, bind_eq_ok_iff] at h
    obtain ⟨-, -, excerpt, -, servers, hs, tags, hg, paths, hp, schemas, hc, he⟩ := h
    cases he
    obtain ⟨_, hs⟩ := field_eq_ok hs
    obtain ⟨_, hg⟩ := field_eq_ok hg
    obtain ⟨_, hp⟩ := field_eq_ok hp
    obtain ⟨_, hc⟩ := field_eq_ok hc
    exact ⟨bind_optional_ne_null _, bind_optional_ne_null _, count_lt hs, count_lt hg, count_lt hp,
      count_lt hc⟩

end Summary

namespace Report

variable {r : Report}

theorem ofTree_of_perm {summaryTree checkTrees : Tree} {members : List (String × Tree)}
    (hp : members.Perm [("summary", summaryTree), ("checks", checkTrees)])
    (hs : Summary.ofTree summaryTree = .ok r.summary)
    (hc : sequence Check.ofTree checkTrees = .ok r.checks) : ofTree (.object members) = .ok r := by
  have hf : checkMembers ofTree.faults members = .ok () := by
    refine checkMembers_eq_ok fun m hm => ?_
    revert m
    simp only [hp.mem_iff, List.forall_mem_cons]
    exact ⟨fault?_of_ok hs, fault?_of_ok hc, List.forall_mem_nil _⟩
  have hn : ["summary", "checks"].Nodup := by decide
  have hm := Tree.member?_of_perm hp hn
  simp only [List.forall_mem_cons] at hm
  obtain ⟨hms, hmc, -⟩ := hm
  rw [ofTree, hf, ok_bind]
  simp only [field_eq, hms, hmc, Option.elim_some, hs, hc, ok_bind]

theorem ofTree_checksTree (checks : List Check) :
    sequence Check.ofTree (checksTree checks) = .ok checks :=
  items_map Check.ofTree_toTree checks

/-- A report is decoded from its serialized form, in the order of a text and as a value. -/
theorem ofTree_serialized (h : r.summary.WellFormed) :
    ofTree r.toTree = .ok r ∧ ofTree r.value = .ok r := by
  have hc := ofTree_checksTree r.checks
  have hs := Summary.ofTree_of_members h (Tree.gather_perm (Summary.nodup_members _))
  have hn : ["summary", "checks"].Nodup := by decide
  exact ⟨ofTree_of_perm .rfl (Summary.ofTree_of_members h .rfl) hc,
    ofTree_of_perm (Tree.gather_perm hn) hs hc⟩

theorem wellFormed_of_ofTree (h : ofTree tree = .ok r) : r.summary.WellFormed := by
  cases tree with
  | null | bool | number | string => cases h
  | array trees =>
    simp only [ofTree, bind_eq_ok_iff] at h
    obtain ⟨summary, hs, checks, -, -, -, he⟩ := h
    cases he
    obtain ⟨_, hs⟩ := entry_eq_ok hs
    exact Summary.wellFormed_of_ofTree hs
  | object members =>
    simp only [ofTree, bind_eq_ok_iff] at h
    obtain ⟨-, -, summary, hs, checks, -, he⟩ := h
    cases he
    obtain ⟨_, hs⟩ := field_eq_ok hs
    exact Summary.wellFormed_of_ofTree hs

end Report

theorem scalarAt_ne_null (document : Tree) (segments : List String) :
    document.scalarAt segments ≠ some .null := by
  intro h
  cases (Option.filter_eq_some_iff.mp h).2

theorem wellFormed_of_countsFit (h : (validate e d).CountsFit) :
    (validate e d).summary.WellFormed :=
  ⟨scalarAt_ne_null d _, scalarAt_ne_null d _, h.servers, h.tags, h.paths, h.schemas⟩

/--
Serializing loses nothing of a report: one that is made of a document, or one that is decoded from
any value, is decoded again from its serialized form, with its members in either order.
-/
theorem report_survives_serialization (e : ExpectationSet) (d v : Tree) :
    ((validate e d).CountsFit →
      Report.ofTree (validate e d).toTree = .ok (validate e d) ∧
        Report.ofTree (validate e d).value = .ok (validate e d)) ∧
    (∀ r, Report.ofTree v = .ok r →
      Report.ofTree r.toTree = .ok r ∧ Report.ofTree r.value = .ok r) := by
  constructor
  · intro h
    exact Report.ofTree_serialized (wellFormed_of_countsFit h)
  · intro r h
    exact Report.ofTree_serialized (Report.wellFormed_of_ofTree h)

/-- A value of sequences and objects, with a member too many, without a version, and any title. -/
theorem report_survives_serialization_mixed :
    let e : ExpectationSet := ⟨["/a"], [], "key"⟩
    let d : Tree := .object [("openapi", .number (.ofInt (-3))), ("paths", .object [("/b", .null)])]
    let v : Tree := .array [
      .object [("a", .null), ("description_excerpt", .string "..."), ("path_count", countTree 0),
        ("schema_count", countTree 0), ("server_count", countTree 7), ("tag_count", countTree 0),
        ("title", .array [.null])],
      .array [.array [.object [("path", .null)], .string "/a", .string "missing"]]]
    let r : Report := ⟨⟨none, some (.array [.null]), "...", 7, 0, 0, 0⟩, [⟨.path, "/a", .missing⟩]⟩
    (validate e d).CountsFit ∧ Report.ofTree (validate e d).value = .ok (validate e d) ∧
      Report.ofTree v = .ok r ∧ Report.ofTree r.value = .ok r := by
  intro e d v r
  have hc : (validate e d).CountsFit := by constructor <;> decide
  have hr : Report.ofTree v = .ok r := rfl
  obtain ⟨hd, hv⟩ := report_survives_serialization e d v
  exact ⟨hc, (hd hc).2, hr, (hv r hr).2⟩

end ApiPresence

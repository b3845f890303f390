import ApiPresence.Tree.Lookup

namespace ApiPresence.Tree

/-- The node that nested keys lead to; of several equal keys of an object the first counts. -/
inductive Reaches : Tree → List String → Tree → Prop where
  | here : Reaches node [] node
  | inside {before after : List (String × Tree)} (first : key ∉ before.map Prod.fst)
      (rest : Reaches child keys node) :
      Reaches (.object (before ++ (key, child) :: after)) (key :: keys) node

/-- An object stands at the place and has the key, whatever its value. -/
def Defines (document : Tree) (place : List String) (key : String) : Prop :=
  ∃ members, document.Reaches place (.object members) ∧ key ∈ members.map Prod.fst

theorem member?_append_cons {before after : List (String × Tree)}
    (hf : key ∉ before.map Prod.fst) :
    member? key (before ++ (key, child) :: after) = some child := by
  induction before with
  | nil => exact if_pos rfl
  | cons member before ih =>
    rw [List.map_cons, List.mem_cons, not_or] at hf
    exact (if_neg (Ne.symm hf.1)).trans (ih hf.2)

theorem member?_eq_some (h : member? key members = some child) :
    ∃ before after, members = before ++ (key, child) :: after ∧ key ∉ before.map Prod.fst := by
  induction members with
  | nil => cases h
  | cons member rest ih =>
    obtain ⟨k, value⟩ := member
    by_cases hk : k = key
    · rw [member?, if_pos hk] at h
      cases h
      exact ⟨[], rest, by rw [hk]; rfl, List.not_mem_nil⟩
    · rw [member?, if_neg hk] at h
      obtain ⟨before, after, rfl, hf⟩ := ih h
      exact ⟨(k, value) :: before, after, rfl, by simp [Ne.symm hk, hf]⟩

theorem exists_member?_of_mem {members : List (String × Tree)} (h : key ∈ members.map Prod.fst) :
    ∃ value, member? key members = some value := by
  induction members with
  | nil => cases h
  | cons member rest ih =>
    obtain ⟨k, value⟩ := member
    by_cases hk : k = key
    · exact ⟨value, if_pos hk⟩
    · obtain ⟨value, hv⟩ := ih (List.mem_of_ne_of_mem (Ne.symm hk) h)
      exact ⟨value, (if_neg hk).trans hv⟩

theorem lookup_cons_eq_some (h : lookup document (key :: place) = some node) :
    ∃ members child, document = .object members ∧ member? key members = some child ∧
      child.lookup place = some node := by
  rw [lookup] at h
  cases document with
  | object members =>
    cases hc : member? key members with
    | none => simp [get?, hc] at h
    | some child => exact ⟨members, child, rfl, hc, by simpa [get?, hc] using h⟩
  | null | bool | number | string | array => cases h

/-- A lookup finds a node exactly when the nested keys lead to it. -/
theorem lookup_eq_some_iff {document node : Tree} :
    document.lookup place = some node ↔ document.Reaches place node := by
  constructor
  · intro h
    induction place generalizing document with
    | nil =>
      cases h
      exact .here
    | cons key place ih =>
      obtain ⟨members, child, rfl, hc, hn⟩ := lookup_cons_eq_some h
      obtain ⟨before, after, rfl, hf⟩ := member?_eq_some hc
      exact .inside hf (ih hn)
  · intro h
    induction h with
    | here => rfl
    | inside hf hr ih =>
      rw [lookup, get?, member?_append_cons hf]
      exact ih

theorem mappingAt_eq_some_iff {document : Tree} :
    document.mappingAt place = some members ↔ document.Reaches place (.object members) := by
  rw [← lookup_eq_some_iff, mappingAt]
  split <;> simp_all

/-- The membership test means what it says, for every shape that a document may have. -/
theorem hasKeyAt_iff {document : Tree} :
    document.hasKeyAt place key = true ↔ document.Defines place key := by
  rw [hasKeyAt, Defines]
  cases hm : document.mappingAt place with
  | none =>
    have hn (members) : ¬ document.Reaches place (.object members) := by
      simp [← mappingAt_eq_some_iff, hm]
    simp [hn]
  | some members =>
    have hu (others) : document.Reaches place (.object others) ↔ members = others := by
      simp [← mappingAt_eq_some_iff, hm]
    simp [hu]

instance (document : Tree) (place : List String) (key : String) :
    Decidable (document.Defines place key) :=
  decidable_of_iff _ hasKeyAt_iff

end ApiPresence.Tree

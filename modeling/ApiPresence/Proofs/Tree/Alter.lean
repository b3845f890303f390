import ApiPresence.Proofs.Members

namespace ApiPresence.Tree

variable {document : Tree} {members : List (String × Tree)} {change further : Tree → Tree}

/-- The members with the value of a key changed; of one key the first member counts. -/
def alterMember (key : String) (change : Tree → Tree) :
    List (String × Tree) → List (String × Tree)
  | [] => []
  | (k, value) :: rest =>
    if k = key then (k, change value) :: rest else (k, value) :: alterMember key change rest

def removeMember (key : String) (members : List (String × Tree)) : List (String × Tree) :=
  members.filter (·.1 ≠ key)

/-- An object with its members changed; any other node stays as it is. -/
def onMembers (change : List (String × Tree) → List (String × Tree)) : Tree → Tree
  | .object members => .object (change members)
  | node => node

/-- The document with the node at a place changed; without such a node it stays as it is. -/
def alterAt (document : Tree) : (place : List String) → (change : Tree → Tree) → Tree
  | [], change => change document
  | key :: place, change => document.onMembers (alterMember key (·.alterAt place change))

/-- The document with a key of the object at a place set to a value. -/
def insertAt (document : Tree) (place : List String) (key : String) (value : Tree) : Tree :=
  document.alterAt place (onMembers (setMember key value))

/-- The document without a key of the object at a place. -/
def removeAt (document : Tree) (place : List String) (key : String) : Tree :=
  document.alterAt place (onMembers (removeMember key))

theorem keys_alterMember (key : String) (change : Tree → Tree) (members : List (String × Tree)) :
    (alterMember key change members).map Prod.fst = members.map Prod.fst := by
  induction members with
  | nil => rfl
  | cons member rest ih =>
    rw [alterMember]
    split
    · rfl
    · rw [List.map_cons, List.map_cons, ih]

theorem member?_alterMember_self :
    member? key (alterMember key change members) = (member? key members).map change := by
  induction members with
  | nil => rfl
  | cons member rest ih =>
    obtain ⟨k, value⟩ := member
    by_cases hk : k = key
    · simp [alterMember, member?, hk]
    · simp [alterMember, member?, hk, ih]

theorem member?_alterMember_of_ne (h : other ≠ key) :
    member? other (alterMember key change members) = member? other members := by
  induction members with
  | nil => rfl
  | cons member rest ih =>
    obtain ⟨k, value⟩ := member
    by_cases hk : k = key
    · have ho : k ≠ other := fun he => h (he.symm.trans hk)
      rw [alterMember, if_pos hk, member?, member?, if_neg ho, if_neg ho]
    · rw [alterMember, if_neg hk, member?, member?, ih]

theorem alterMember_alterMember : alterMember key further (alterMember key change members) =
    alterMember key (fun value => further (change value)) members := by
  induction members with
  | nil => rfl
  | cons member rest ih =>
    obtain ⟨k, value⟩ := member
    by_cases hk : k = key
    · simp [alterMember, hk]
    · simp [alterMember, hk, ih]

theorem alterMember_eq_self (h : ∀ value, member? key members = some value → change value = value) :
    alterMember key change members = members := by
  induction members with
  | nil => rfl
  | cons member rest ih =>
    obtain ⟨k, value⟩ := member
    by_cases hk : k = key
    · rw [alterMember, if_pos hk, h value (if_pos hk)]
    · rw [alterMember, if_neg hk, ih]
      intro value hv
      exact h value ((if_neg hk).trans hv)

theorem member?_setMember_of_ne (h : other ≠ key) :
    member? other (setMember key value members) = member? other members := by
  induction members with
  | nil => exact if_neg h.symm
  | cons member rest ih =>
    obtain ⟨k, v⟩ := member
    rw [setMember]
    split
    · next he => rw [member?, member?, if_neg h.symm, if_neg fun hk => h (hk.symm.trans he.symm)]
    · split
      · rw [member?, if_neg h.symm]
      · rw [member?, member?, ih]

theorem member?_removeMember_of_ne (h : other ≠ key) :
    member? other (removeMember key members) = member? other members := by
  induction members with
  | nil => rfl
  | cons member rest ih =>
    obtain ⟨k, v⟩ := member
    by_cases hk : k = key
    · have ho : k ≠ other := fun he => h (he.symm.trans hk)
      rw [removeMember, List.filter_cons_of_neg (by simpa using hk), member?, if_neg ho]
      exact ih
    · rw [removeMember, List.filter_cons_of_pos (by simpa using hk), member?, member?]
      rw [removeMember] at ih
      rw [ih]

/-- A key that is not there yet adds one member. -/
theorem setMember_perm (h : key ∉ members.map Prod.fst) :
    (setMember key value members).Perm ((key, value) :: members) := by
  induction members with
  | nil => exact .rfl
  | cons member rest ih =>
    obtain ⟨k, v⟩ := member
    rw [List.map_cons, List.mem_cons, not_or] at h
    rw [setMember, if_neg h.1]
    split
    · exact .rfl
    · exact ((ih h.2).cons _).trans (.swap _ _ _)

theorem removeMember_of_not_mem (h : key ∉ members.map Prod.fst) :
    removeMember key members = members := by
  rw [removeMember, List.filter_eq_self]
  intro m hm
  have hk : m.1 ≠ key := fun he => h (he ▸ List.mem_map_of_mem hm)
  simpa using hk

theorem removeMember_setMember (h : key ∉ members.map Prod.fst) :
    removeMember key (setMember key value members) = members := by
  induction members with
  | nil => simp [setMember, removeMember]
  | cons member rest ih =>
    obtain ⟨k, v⟩ := member
    have hm := removeMember_of_not_mem h
    rw [List.map_cons, List.mem_cons, not_or] at h
    rw [setMember, if_neg h.1]
    split
    · rw [removeMember, List.filter_cons_of_neg (by simp)]
      exact hm
    · rw [removeMember, List.filter_cons_of_pos (by simpa using Ne.symm h.1)]
      exact congrArg _ (ih h.2)

/-- Among ordered members a removed member has one place to come back to. -/
theorem setMember_removeMember (hs : (members.map Prod.fst).Pairwise (· < ·))
    (h : (key, value) ∈ members) : setMember key value (removeMember key members) = members := by
  induction members with
  | nil => cases h
  | cons member rest ih =>
    obtain ⟨k, v⟩ := member
    obtain ⟨hk, hr⟩ := List.pairwise_cons.mp hs
    rcases List.mem_cons.mp h with he | h
    · cases he
      have hn : key ∉ rest.map Prod.fst := fun hm => lt_irrefl key (hk key hm)
      rw [removeMember, List.filter_cons_of_neg (by simp), ← removeMember,
        removeMember_of_not_mem hn]
      cases rest with
      | nil => rfl
      | cons next rest =>
        have hl : key < next.1 := hk next.1 List.mem_cons_self
        rw [setMember, if_neg hl.ne, if_pos hl]
    · have hl : k < key := hk key (List.mem_map_of_mem (f := Prod.fst) h)
      rw [removeMember, List.filter_cons_of_pos (by simpa using hl.ne), ← removeMember, setMember,
        if_neg hl.ne', if_neg hl.asymm, ih hr h]

theorem lookup_cons (document : Tree) (key : String) (place : List String) :
    document.lookup (key :: place) = (document.get? key).bind (·.lookup place) := by
  rw [lookup]
  cases document.get? key <;> rfl

theorem lookup_append (document : Tree) (place lower : List String) :
    document.lookup (place ++ lower) = (document.lookup place).bind (·.lookup lower) := by
  induction place generalizing document with
  | nil => rfl
  | cons key place ih =>
    rw [List.cons_append, lookup_cons, lookup_cons, Option.bind_assoc]
    congr 1
    funext child
    exact ih child

theorem get?_alterAt_self : (document.alterAt (key :: place) change).get? key =
    (document.get? key).map (·.alterAt place change) := by
  cases document with
  | object members => exact member?_alterMember_self
  | null | bool | number | string | array => rfl

theorem get?_alterAt_of_ne (h : other ≠ key) :
    (document.alterAt (key :: place) change).get? other = document.get? other := by
  cases document with
  | object members => exact member?_alterMember_of_ne h
  | null | bool | number | string | array => rfl

/-- What stands below a changed node is found in it. -/
theorem lookup_alterAt_append (document : Tree) (place lower : List String)
    (change : Tree → Tree) : (document.alterAt place change).lookup (place ++ lower) =
      (document.lookup place).bind fun node => (change node).lookup lower := by
  induction place generalizing document with
  | nil => rfl
  | cons key place ih =>
    rw [List.cons_append, lookup_cons, get?_alterAt_self, Option.bind_map, lookup_cons,
      Option.bind_assoc]
    congr 1
    funext child
    exact ih child

theorem lookup_alterAt_self (document : Tree) (place : List String) (change : Tree → Tree) :
    (document.alterAt place change).lookup place = (document.lookup place).map change := by
  have h := document.lookup_alterAt_append place [] change
  rw [List.append_nil] at h
  rw [h]
  cases document.lookup place <;> rfl

/-- A place that leads neither to a changed node nor through it is as it was. -/
theorem lookup_alterAt_of_apart (h : ¬ place <+: other) (h' : ¬ other <+: place) :
    (document.alterAt place change).lookup other = document.lookup other := by
  induction place generalizing document other with
  | nil => exact absurd List.nil_prefix h
  | cons key place ih =>
    cases other with
    | nil => exact absurd List.nil_prefix h'
    | cons k other =>
      rw [lookup_cons, lookup_cons]
      by_cases hk : k = key
      · subst hk
        rw [List.prefix_cons_inj] at h h'
        rw [get?_alterAt_self, Option.bind_map]
        congr 1
        funext child
        exact ih h h'
      · rw [get?_alterAt_of_ne hk]

theorem alterAt_append (document : Tree) (place lower : List String) (change : Tree → Tree) :
    document.alterAt (place ++ lower) change = document.alterAt place (·.alterAt lower change) := by
  induction place generalizing document with
  | nil => rfl
  | cons key place ih =>
    simp only [List.cons_append, alterAt, ih]

theorem alterAt_alterAt : (document.alterAt place change).alterAt place further =
    document.alterAt place fun node => further (change node) := by
  induction place generalizing document with
  | nil => rfl
  | cons key place ih =>
    cases document with
    | object members =>
      simp only [alterAt, onMembers, alterMember_alterMember, ih]
    | null | bool | number | string | array => rfl

theorem alterAt_eq_self (h : ∀ node, document.lookup place = some node → change node = node) :
    document.alterAt place change = document := by
  induction place generalizing document with
  | nil => exact h document rfl
  | cons key place ih =>
    cases document with
    | object members =>
      rw [alterAt, onMembers, alterMember_eq_self]
      intro child hc
      apply ih
      intro node hn
      apply h
      rw [lookup_cons, get?, hc]
      exact hn
    | null | bool | number | string | array => rfl

theorem Reaches.alterAt (h : document.Reaches place node) (change : Tree → Tree) :
    (document.alterAt place change).Reaches place (change node) := by
  rw [← lookup_eq_some_iff, lookup_alterAt_self, lookup_eq_some_iff.mpr h, Option.map_some]

theorem removeAt_insertAt (h : document.Reaches place (.object members))
    (hk : key ∉ members.map Prod.fst) (value : Tree) :
    (document.insertAt place key value).removeAt place key = document := by
  rw [removeAt, insertAt, alterAt_alterAt]
  apply alterAt_eq_self
  intro node hn
  cases hn.symm.trans (lookup_eq_some_iff.mpr h)
  rw [onMembers, onMembers, removeMember_setMember hk]

theorem insertAt_removeAt (h : document.Reaches place (.object members))
    (hs : (members.map Prod.fst).Pairwise (· < ·)) (hm : (key, value) ∈ members) :
    (document.removeAt place key).insertAt place key value = document := by
  rw [removeAt, insertAt, alterAt_alterAt]
  apply alterAt_eq_self
  intro node hn
  cases hn.symm.trans (lookup_eq_some_iff.mpr h)
  rw [onMembers, onMembers, setMember_removeMember hs hm]

end ApiPresence.Tree

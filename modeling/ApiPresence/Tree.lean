import ApiPresence.Number

namespace ApiPresence

/-- A document: scalars, sequences and objects whose members stand in the order of the list. -/
inductive Tree where
  | null
  | bool (value : Bool)
  | number (value : Number)
  | string (value : String)
  | array (items : List Tree)
  | object (members : List (String × Tree))
  deriving Inhabited

namespace Tree

mutual

def decEq : (s t : Tree) → Decidable (s = t)
  | .null, t => match t with
    | .null => isTrue rfl
    | .bool _ | .number _ | .string _ | .array _ | .object _ => isFalse (by simp)
  | .bool a, t => match t with
    | .bool b => if h : a = b then isTrue (h ▸ rfl) else isFalse (by simpa using h)
    | .null | .number _ | .string _ | .array _ | .object _ => isFalse (by simp)
  | .number a, t => match t with
    | .number b => if h : a = b then isTrue (h ▸ rfl) else isFalse (by simpa using h)
    | .null | .bool _ | .string _ | .array _ | .object _ => isFalse (by simp)
  | .string a, t => match t with
    | .string b => if h : a = b then isTrue (h ▸ rfl) else isFalse (by simpa using h)
    | .null | .bool _ | .number _ | .array _ | .object _ => isFalse (by simp)
  | .array a, t => match t with
    | .array b => match decEqItems a b with
      | isTrue h => isTrue (h ▸ rfl)
      | isFalse h => isFalse (by simpa using h)
    | .null | .bool _ | .number _ | .string _ | .object _ => isFalse (by simp)
  | .object a, t => match t with
    | .object b => match decEqMembers a b with
      | isTrue h => isTrue (h ▸ rfl)
      | isFalse h => isFalse (by simpa using h)
    | .null | .bool _ | .number _ | .string _ | .array _ => isFalse (by simp)

def decEqItems : (s t : List Tree) → Decidable (s = t)
  | [], [] => isTrue rfl
  | [], _ :: _ => isFalse (by simp)
  | _ :: _, [] => isFalse (by simp)
  | a :: s, b :: t => match decEq a b with
    | isFalse h => isFalse fun e => h (List.cons.inj e).1
    | isTrue h => match decEqItems s t with
      | isTrue h' => isTrue (h ▸ h' ▸ rfl)
      | isFalse h' => isFalse fun e => h' (List.cons.inj e).2

def decEqMembers : (s t : List (String × Tree)) → Decidable (s = t)
  | [], [] => isTrue rfl
  | [], _ :: _ => isFalse (by simp)
  | _ :: _, [] => isFalse (by simp)
  | (k, a) :: s, (l, b) :: t =>
    if hk : k = l then
      match decEq a b with
      | isFalse h => isFalse fun e => h (Prod.mk.inj (List.cons.inj e).1).2
      | isTrue h => match decEqMembers s t with
        | isTrue h' => isTrue (hk ▸ h ▸ h' ▸ rfl)
        | isFalse h' => isFalse fun e => h' (List.cons.inj e).2
    else isFalse fun e => hk (Prod.mk.inj (List.cons.inj e).1).1

end

instance : DecidableEq Tree := decEq

/--
The members with `key` set: a member of that key is replaced, a new one goes before the first larger
key.
-/
def setMember (key : String) (value : Tree) : List (String × Tree) → List (String × Tree)
  | [] => [(key, value)]
  | (k, v) :: rest =>
    if key = k then (key, value) :: rest
    else if key < k then (key, value) :: (k, v) :: rest
    else (k, v) :: setMember key value rest

/-- The object of some entries: keys in order of their characters, and of one key the last entry. -/
def ofEntries (entries : List (String × Tree)) : Tree :=
  .object (entries.foldl (fun members (k, v) => setMember k v members) [])

mutual

/-- Every object in the tree has strictly increasing keys, as all trees that are read have. -/
def Ordered : Tree → Prop
  | .null | .bool _ | .number _ | .string _ => True
  | .array items => OrderedItems items
  | .object members => (members.map Prod.fst).Pairwise (· < ·) ∧ OrderedMembers members

def OrderedItems : List Tree → Prop
  | [] => True
  | item :: rest => item.Ordered ∧ OrderedItems rest

def OrderedMembers : List (String × Tree) → Prop
  | [] => True
  | (_, value) :: rest => value.Ordered ∧ OrderedMembers rest

end

end Tree
end ApiPresence

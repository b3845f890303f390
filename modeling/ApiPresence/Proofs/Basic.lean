import Mathlib.Data.List.Forall2

namespace ApiPresence

theorem ok_eq_ok_iff {a b : α} : (.ok a : Except ε α) = .ok b ↔ b = a := by
  rw [Except.ok.injEq, eq_comm]

theorem ok_bind (a : α) (rest : α → Except ε β) : ((.ok a : Except ε α) >>= rest) = rest a := rfl

/-- A computation gives a result when its first part does and the rest does with that. -/
theorem bind_eq_ok_iff {first : Except ε α} {rest : α → Except ε β} :
    (first >>= rest) = .ok b ↔ ∃ a, first = .ok a ∧ rest a = .ok b := by
  cases first with
  | error e => exact ⟨nofun, nofun⟩
  | ok a => exact ⟨fun h => ⟨a, rfl, h⟩, fun ⟨_, ha, h⟩ => Except.ok.inj ha ▸ h⟩

theorem mapError_eq_ok_iff {f : ε → δ} {result : Except ε α} :
    result.mapError f = .ok a ↔ result = .ok a := by
  cases result with
  | error e => exact ⟨nofun, nofun⟩
  | ok b => exact ok_eq_ok_iff.trans ok_eq_ok_iff.symm

theorem mapError_eq_error_iff {f : ε → δ} {result : Except ε α} :
    result.mapError f = .error d ↔ ∃ e, result = .error e ∧ d = f e := by
  cases result with
  | error e =>
    constructor
    · intro h
      cases h
      exact ⟨e, rfl, rfl⟩
    · rintro ⟨e, he, rfl⟩
      cases he
      rfl
  | ok a => exact ⟨nofun, nofun⟩

/-- A computation fails with a certain kind of error, or not at all. -/
def FailsOnly (P : ε → Prop) (result : Except ε α) : Prop := ∀ e, result = .error e → P e

section FailsOnly

variable {P Q : ε → Prop}

@[simp]
theorem failsOnly_ok {a : α} : FailsOnly P (.ok a : Except ε α) := nofun

@[simp]
theorem failsOnly_error {e : ε} : FailsOnly P (.error e : Except ε α) ↔ P e :=
  ⟨fun h => h e rfl, fun h _ he => Except.error.inj he ▸ h⟩

@[simp]
theorem failsOnly_ite {p : Prop} [Decidable p] {a b : Except ε α} :
    FailsOnly P (if p then a else b) ↔ (p → FailsOnly P a) ∧ (¬ p → FailsOnly P b) := by
  split <;> simp [*]

theorem FailsOnly.bind {first : Except ε α} {rest : α → Except ε β} (h : FailsOnly P first)
    (hr : ∀ a, first = .ok a → FailsOnly P (rest a)) : FailsOnly P (first >>= rest) := by
  cases first with
  | error e => exact failsOnly_error.mpr (h e rfl)
  | ok a => exact hr a rfl

@[simp]
theorem failsOnly_ok_bind {a : α} {rest : α → Except ε β} :
    FailsOnly P (.ok a >>= rest) ↔ FailsOnly P (rest a) :=
  Iff.rfl

@[simp]
theorem failsOnly_error_bind {e : ε} {rest : α → Except ε β} :
    FailsOnly P (.error e >>= rest) ↔ P e :=
  failsOnly_error

@[simp]
theorem failsOnly_map {first : Except ε α} {f : α → β} :
    FailsOnly P (first >>= fun a => .ok (f a)) ↔ FailsOnly P first := by
  cases first with
  | error e => exact failsOnly_error.trans failsOnly_error.symm
  | ok a => exact iff_of_true failsOnly_ok failsOnly_ok

theorem FailsOnly.mono {result : Except ε α} (h : FailsOnly P result) (hp : ∀ e, P e → Q e) :
    FailsOnly Q result := fun e he => hp e (h e he)

theorem FailsOnly.mapError {result : Except ε α} {f : ε → δ} {R : δ → Prop}
    (h : FailsOnly P result) (hf : ∀ e, P e → R (f e)) : FailsOnly R (result.mapError f) := by
  intro d hd
  obtain ⟨e, he, rfl⟩ := mapError_eq_error_iff.mp hd
  exact hf e (h e he)

end FailsOnly

theorem foldrM_eq_ok_iff {f : α → List β → Except ε (List β)} {R : α → β → Prop}
    (hf : ∀ x done out, f x done = .ok out ↔ ∃ y, R x y ∧ out = y :: done) :
    xs.foldrM f [] = .ok ys ↔ List.Forall₂ R xs ys := by
  induction xs generalizing ys with
  | nil =>
    rw [List.foldrM_nil, List.forall₂_nil_left_iff]
    exact ok_eq_ok_iff
  | cons x xs ih =>
    rw [List.foldrM_cons, bind_eq_ok_iff, List.forall₂_cons_left_iff]
    constructor
    · rintro ⟨done, hd, h⟩
      obtain ⟨y, hy, rfl⟩ := (hf x done ys).mp h
      exact ⟨y, done, hy, ih.mp hd, rfl⟩
    · rintro ⟨y, done, hy, hd, rfl⟩
      exact ⟨done, ih.mpr hd, (hf x done _).mpr ⟨y, hy, rfl⟩⟩

theorem forall₂_of_mem {R S : α → β → Prop} (hs : ∀ x ∈ xs, ∀ y, R x y → S x y)
    (h : List.Forall₂ R xs ys) : List.Forall₂ S xs ys := by
  have hm := (List.forall₂_and_left xs ys).mpr ⟨fun x hx => hx, h⟩
  exact hm.imp fun x y ⟨hx, hr⟩ => hs x hx y hr

theorem forall₂_congr_mem {R S : α → β → Prop} (hs : ∀ x ∈ xs, ∀ y, R x y ↔ S x y) :
    List.Forall₂ R xs ys ↔ List.Forall₂ S xs ys :=
  ⟨forall₂_of_mem fun x hx y => (hs x hx y).mp, forall₂_of_mem fun x hx y => (hs x hx y).mpr⟩

theorem forall₂_mem_left {R : α → β → Prop} (h : List.Forall₂ R xs ys) (hx : x ∈ xs) :
    ∃ y ∈ ys, R x y := by
  induction h with
  | nil => cases hx
  | cons hr hrs ih =>
    cases hx with
    | head => exact ⟨_, List.mem_cons_self, hr⟩
    | tail _ hx =>
      obtain ⟨y, hy, hr⟩ := ih hx
      exact ⟨y, List.mem_cons_of_mem _ hy, hr⟩

theorem forall₂_mem_right {R : α → β → Prop} (h : List.Forall₂ R xs ys) (hy : y ∈ ys) :
    ∃ x ∈ xs, R x y :=
  forall₂_mem_left h.flip hy

theorem forall₂_comp_iff {R : α → β → Prop} {S : β → γ → Prop} :
    (∃ ys, List.Forall₂ R xs ys ∧ List.Forall₂ S ys zs) ↔
      List.Forall₂ (fun x z => ∃ y, R x y ∧ S y z) xs zs := by
  constructor
  · rintro ⟨ys, hr, hs⟩
    induction hr generalizing zs with
    | nil => cases hs; exact .nil
    | cons hr hrs ih =>
      cases hs with
      | cons hs hss => exact .cons ⟨_, hr, hs⟩ (ih hss)
  · intro h
    induction h with
    | nil => exact ⟨[], .nil, .nil⟩
    | cons hy hys ih =>
      obtain ⟨y, hr, hs⟩ := hy
      obtain ⟨ys, hrs, hss⟩ := ih
      exact ⟨y :: ys, .cons hr hrs, .cons hs hss⟩

theorem forall₂_append_cons_left {R : α → β → Prop}
    (h : List.Forall₂ R (before ++ x :: after) ys) :
    ∃ first y rest, ys = first ++ y :: rest ∧ R x y ∧ List.Forall₂ R after rest := by
  induction before generalizing ys with
  | nil =>
    cases h with
    | cons hr hrs => exact ⟨[], _, _, rfl, hr, hrs⟩
  | cons b before ih =>
    cases h with
    | cons hb hbs =>
      obtain ⟨first, y, rest, rfl, hr, hrs⟩ := ih hbs
      exact ⟨_ :: first, y, rest, rfl, hr, hrs⟩

theorem takeWhile_append {a rest : List α} (h : ∀ x ∈ a, kind x = true)
    (hr : ∀ x ∈ rest.head?, kind x = false) : (a ++ rest).takeWhile kind = a := by
  rw [List.takeWhile_append_of_pos h]
  cases rest with
  | nil => exact List.append_nil a
  | cons x rest => rw [List.takeWhile_cons_of_neg (by simp [hr x rfl]), List.append_nil]

theorem dropWhile_append {a rest : List α} (h : ∀ x ∈ a, kind x = true)
    (hr : ∀ x ∈ rest.head?, kind x = false) : (a ++ rest).dropWhile kind = rest := by
  rw [List.dropWhile_append_of_pos h]
  cases rest with
  | nil => rfl
  | cons x rest => exact List.dropWhile_cons_of_neg (by simp [hr x rfl])

/-- A list is split in front of its first element that is not of a kind. -/
theorem exists_split (kind : α → Bool) (xs : List α) : ∃ a b, xs = a ++ b ∧
    (∀ x ∈ a, kind x = true) ∧ ∀ x ∈ b.head?, kind x = false := by
  induction xs with
  | nil => exact ⟨[], [], rfl, nofun, nofun⟩
  | cons x xs ih =>
    cases hx : kind x with
    | false =>
      refine ⟨[], x :: xs, rfl, nofun, ?_⟩
      rintro y ⟨⟩
      exact hx
    | true =>
      obtain ⟨a, b, rfl, ha, hb⟩ := ih
      exact ⟨x :: a, b, rfl, List.forall_mem_cons.mpr ⟨hx, ha⟩, hb⟩

end ApiPresence

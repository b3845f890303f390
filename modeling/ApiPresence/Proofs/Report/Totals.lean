import ApiPresence.Proofs.Validation.Counts
import Mathlib.Algebra.GroupWithZero.Nat
import Mathlib.Logic.Function.Basic

namespace ApiPresence

/-- A list is made of parts by taking, again and again, the first element left in one of them. -/
inductive Interleaves [DecidableEq κ] : (κ → List α) → List α → Prop
  | done (h : ∀ k, parts k = []) : Interleaves parts []
  | take (k : κ) (hp : parts k = x :: rest)
    (h : Interleaves (Function.update parts k rest) whole) : Interleaves parts (x :: whole)

/-- The elements of each kind, in their order, make up a list. -/
theorem interleaves_filter [DecidableEq κ] (kind : α → κ) (xs : List α) :
    Interleaves (fun k => xs.filter (kind · = k)) xs := by
  induction xs with
  | nil =>
    apply Interleaves.done
    intro k
    exact List.filter_nil
  | cons x xs ih =>
    have hu : Function.update (fun k => (x :: xs).filter (kind · = k)) (kind x)
        (xs.filter (kind · = kind x)) = fun k => xs.filter (kind · = k) := by
      funext k
      by_cases hk : k = kind x
      · subst hk
        simp
      · rw [Function.update_of_ne hk, List.filter_cons_of_neg (by simpa using Ne.symm hk)]
    apply Interleaves.take (kind x) (List.filter_cons_of_pos (by simp))
    rw [hu]
    exact ih

/-- Of parts that make up a list, what is counted in it is counted in one of them. -/
theorem Interleaves.countP_eq {parts : Category → List α} (h : Interleaves parts whole)
    (p : α → Bool) : whole.countP p = (Category.all.map fun k => (parts k).countP p).sum := by
  induction h with
  | done h => simp [h]
  | take k hp h ih =>
    rw [List.countP_cons, ih]
    cases k <;> simp [Category.all, Function.update, hp, List.countP_cons] <;> omega

namespace Report

/-- How many checks of a category did not find their key. -/
def missingIn (r : Report) (category : Category) : Nat :=
  (r.checksIn category).countP (!·.status.isPresent)

theorem length_missing (r : Report) : r.missing.length = r.missingCount := by
  rw [missing, ← List.countP_eq_length_filter, r.countP_not_isPresent]

theorem interleaves_checksIn (r : Report) : Interleaves r.checksIn r.checks :=
  interleaves_filter Check.category r.checks

end Report

/--
What a report counts and selects of its checks agrees, whatever checks of whatever categories it
has: the missing ones are those that are not present, a complete report has none, and the categories
share out the checks in their order, with all that is counted of them.
-/
theorem report_totals_agree (r : Report) :
    r.presentCount ≤ r.checks.length ∧ r.missingCount = r.missing.length ∧
    r.presentCount + r.missingCount = r.checks.length ∧
    (r.isComplete = true ↔ ∀ c ∈ r.checks, c.status = .present) ∧
    Interleaves r.checksIn r.checks ∧
    r.checks.length = (Category.all.map fun k => (r.checksIn k).length).sum ∧
    r.presentCount = (Category.all.map r.presentIn).sum ∧
    r.missingCount = (Category.all.map r.missingIn).sum := by
  have hi := r.interleaves_checksIn
  have hl : r.presentCount ≤ r.checks.length := List.countP_le_length
  have hc := hi.countP_eq fun _ => true
  simp only [List.countP_true] at hc
  have hm := hi.countP_eq (!·.status.isPresent)
  rw [r.countP_not_isPresent] at hm
  exact ⟨hl, r.length_missing.symm, Nat.add_sub_of_le hl, Report.isComplete_iff, hi, hc,
    hi.countP_eq _, hm⟩

end ApiPresence

import ApiPresence.Proofs.Yaml.Cursor
import ApiPresence.Yaml.Lexeme.Gap

namespace ApiPresence.Yaml

/-- Spaces, and line breaks that are kept. -/
def IsGap (gap : List Char) : Prop := ∀ c ∈ gap, c = ' ' ∨ isKeptBreak c = true

/-- A text in front of which a gap ends. -/
def EndsGap (rest : List Char) : Prop := ∀ c ∈ rest.head?, isBlank c = false ∧ isBreak c = false

theorem isGap_spaces (n : Nat) : IsGap (spaces n) :=
  fun _ hc => .inl (List.eq_of_mem_replicate hc)

theorem endsGap_cons_append (h : EndsGap text) (hn : text ≠ []) : EndsGap (text ++ rest) := by
  cases text with
  | nil => exact absurd rfl hn
  | cons c text => exact h

theorem isBreak_of_isKeptBreak (h : isKeptBreak c = true) : isBreak c = true :=
  (Bool.and_eq_true_iff.mp h).1

theorem not_isBlank_of_isBreak (h : isBreak c = true) : isBlank c = false := by
  cases hb : isBlank c with
  | false => rfl
  | true =>
    simp only [isBlank, Bool.or_eq_true, decide_eq_true_eq] at hb
    obtain rfl | rfl := hb <;> cases h

theorem not_isBlank_of_isPlainText (h : isPlainText c = true) (hs : c ≠ ' ') :
    isBlank c = false := by
  have ht : c ≠ '\t' := by
    rintro rfl
    cases h
  simp [isBlank, hs, ht]

namespace Gap

def add (g : Gap) (c : Char) : Gap := if isBreak c then g.addBreak [c] else g.addBlank c

theorem add_space (g : Gap) : g.add ' ' = g.addBlank ' ' := rfl

theorem add_break (h : isBreak c = true) (g : Gap) : g.add c = g.addBreak [c] := if_pos h

theorem read_nil (h : EndsGap rest) (indentation : Option (Nat × Mark)) (fuel : Nat) (g : Gap)
    (m : Mark) : read indentation fuel g ⟨rest, m⟩ = .ok (g, ⟨rest, m⟩) := by
  cases fuel with
  | zero => rfl
  | succ fuel =>
    cases rest with
    | nil => rfl
    | cons c rest =>
      obtain ⟨hb, hc⟩ := h c rfl
      simp [read, hb, hc]

theorem read_space (indentation : Option (Nat × Mark)) (fuel : Nat) (g : Gap) (rest : List Char)
    (m : Mark) : read indentation (fuel + 1) g ⟨' ' :: rest, m⟩ =
      read indentation fuel (g.addBlank ' ') ⟨rest, m.forward [' ']⟩ := by
  cases indentation with
  | none => rfl
  | some place =>
    have hn : ¬ (g.broken = true ∧ m.column < place.1 ∧ ' ' = '\t') := by simp
    rw [read]
    exact if_neg hn

theorem read_break (h : isKeptBreak c = true) (indentation : Option (Nat × Mark)) (fuel : Nat)
    (g : Gap) (rest : List Char) (m : Mark) : read indentation (fuel + 1) g ⟨c :: rest, m⟩ =
      read indentation fuel (g.addBreak [c]) ⟨rest, m.nextLine [c]⟩ := by
  have hc := isBreak_of_isKeptBreak h
  rw [read, Cursor.lineBreak_kept h]
  simp [hc, not_isBlank_of_isBreak hc]

theorem read_append (hg : IsGap gap) (hr : EndsGap rest) (hf : gap.length ≤ fuel)
    (indentation : Option (Nat × Mark)) (g : Gap) (m : Mark) :
    read indentation fuel g ⟨gap ++ rest, m⟩ = .ok (gap.foldl add g, ⟨rest, m.over gap⟩) := by
  induction gap generalizing fuel g m with
  | nil => exact read_nil hr indentation fuel g m
  | cons c gap ih =>
    obtain ⟨hc, ht⟩ := List.forall_mem_cons.mp hg
    cases fuel with
    | zero => cases hf
    | succ fuel =>
      have hl := Nat.le_of_succ_le_succ hf
      rw [List.cons_append, List.foldl_cons]
      obtain rfl | hc := hc
      · rw [read_space, ih ht hl, add_space, Mark.over_cons rfl]
      · have hb := isBreak_of_isKeptBreak hc
        rw [read_break hc, ih ht hl, add_break hb, Mark.over_cons_break hb]

theorem addBlank_broken {g : Gap} (h : g.broken = true) (c : Char) : g.addBlank c = g := if_pos h

/-- Spaces behind a line break do not count. -/
theorem foldl_add_indentation {g : Gap} (h : g.broken = true) (n : Nat) :
    (spaces n).foldl add g = g := by
  induction n with
  | zero => rfl
  | succ n ih =>
    rw [spaces, List.replicate_succ, List.foldl_cons, add_space, addBlank_broken h]
    exact ih

/-- Spaces on a line read as they are. -/
theorem foldl_add_spaces (n : Nat) (blanks : List Char) :
    (spaces n).foldl add ⟨blanks, false, [], []⟩ = ⟨blanks ++ spaces n, false, [], []⟩ := by
  induction n generalizing blanks with
  | zero => rw [spaces, List.replicate_zero, List.foldl_nil, List.append_nil]
  | succ n ih =>
    rw [spaces, List.replicate_succ, List.foldl_cons, add_space]
    exact (ih (blanks ++ [' '])).trans (by rw [List.append_assoc]; rfl)

theorem foldl_add_breaks (h : ∀ c ∈ breaks, isBreak c = true) (g : Gap) (hg : g.broken = true) :
    breaks.foldl add g = { g with later := g.later ++ breaks } := by
  induction breaks generalizing g with
  | nil => rw [List.foldl_nil, List.append_nil]
  | cons c breaks ih =>
    obtain ⟨hc, hb⟩ := List.forall_mem_cons.mp h
    have ha : g.add c = { g with later := g.later ++ [c] } := by
      rw [add_break hc, addBreak, if_pos hg]
    rw [List.foldl_cons, ha, ih hb]
    · simp only [List.append_assoc, List.singleton_append]
    · exact hg

end Gap
end ApiPresence.Yaml

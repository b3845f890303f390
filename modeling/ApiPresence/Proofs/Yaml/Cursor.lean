import ApiPresence.Proofs.Basic
import ApiPresence.Yaml.Cursor
import ApiPresence.Yaml.Printer
import Mathlib.Data.List.Basic

namespace ApiPresence.Yaml

open Text (octets)

/-- The order of places: neither the line nor the octets before them go back. -/
structure Mark.UpTo (m n : Mark) : Prop where
  line : m.line ≤ n.line
  index : m.index ≤ n.index

theorem Mark.UpTo.refl (m : Mark) : m.UpTo m := ⟨Nat.le_refl _, Nat.le_refl _⟩

theorem Mark.UpTo.trans {m n o : Mark} (h : m.UpTo n) (h' : n.UpTo o) : m.UpTo o :=
  ⟨Nat.le_trans h.line h'.line, Nat.le_trans h.index h'.index⟩

theorem Mark.upTo_forward (m : Mark) (text : List Char) : m.UpTo (m.forward text) :=
  ⟨Nat.le_refl _, Nat.le_add_right _ _⟩

theorem Mark.upTo_nextLine (m : Mark) (text : List Char) : m.UpTo (m.nextLine text) :=
  ⟨Nat.le_succ _, Nat.le_add_right _ _⟩

theorem Cursor.upTo_skipWhile (kind : Char → Bool) (c : Cursor) :
    c.mark.UpTo (c.skipWhile kind).mark :=
  c.mark.upTo_forward _

theorem Cursor.upTo_skipBreak (c : Cursor) : c.mark.UpTo c.skipBreak.mark := by
  rw [skipBreak, lineBreak]
  split
  · exact c.mark.upTo_nextLine _
  · split
    · exact c.mark.upTo_nextLine _
    · split
      · exact c.mark.upTo_nextLine _
      · exact .refl _
  · exact .refl _

theorem octets_append (a b : List Char) : octets (a ++ b) = octets a + octets b := by
  have h (n : Nat) (cs : List Char) : cs.foldl (fun n c => n + c.utf8Size) n = n + octets cs := by
    induction cs generalizing n with
    | nil => rfl
    | cons c cs ih =>
      have hc : octets (c :: cs) = c.utf8Size + octets cs := by
        rw [octets, List.foldl_cons, Nat.zero_add, ih]
      rw [List.foldl_cons, ih, hc, Nat.add_assoc]
  rw [octets, List.foldl_append, ← octets, h]

/-- The place behind a text in which every line break is one character. -/
def Mark.over (m : Mark) (text : List Char) : Mark :=
  text.foldl (fun m c => if isBreak c then m.nextLine [c] else m.forward [c]) m

@[simp]
theorem Mark.over_nil (m : Mark) : m.over [] = m := rfl

theorem Mark.over_append (m : Mark) (a b : List Char) : m.over (a ++ b) = (m.over a).over b :=
  List.foldl_append

theorem Mark.over_cons_break (h : isBreak c = true) (m : Mark) (text : List Char) :
    m.over (c :: text) = (m.nextLine [c]).over text := by
  rw [Mark.over, List.foldl_cons, if_pos h, Mark.over]

theorem Mark.over_cons (h : isBreak c = false) (m : Mark) (text : List Char) :
    m.over (c :: text) = (m.forward [c]).over text := by
  rw [Mark.over, List.foldl_cons, h, if_neg Bool.false_ne_true, Mark.over]

theorem spaces_succ' (n : Nat) : spaces (n + 1) = spaces n ++ [' '] := List.replicate_succ'

theorem exists_spaces (text : List Char) : ∃ n rest, text = spaces n ++ rest ∧
    ∀ c ∈ rest.head?, c ≠ ' ' := by
  obtain ⟨a, rest, rfl, ha, hr⟩ := exists_split (· = ' ') text
  refine ⟨a.length, rest, ?_, by simpa using hr⟩
  rw [spaces, ← List.eq_replicate_of_mem (by simpa using ha)]

theorem spaces_append_inj (ha : ∀ c ∈ a.head?, c ≠ ' ') (hb : ∀ c ∈ b.head?, c ≠ ' ')
    (h : spaces k ++ a = spaces n ++ b) : k = n ∧ a = b := by
  have ht (n : Nat) (a : List Char) (ha : ∀ c ∈ a.head?, c ≠ ' ') :
      (spaces n ++ a).takeWhile (· = ' ') = spaces n ∧ (spaces n ++ a).dropWhile (· = ' ') = a :=
    ⟨takeWhile_append (by simp [spaces]) (by simpa using ha),
      dropWhile_append (by simp [spaces]) (by simpa using ha)⟩
  have hl := congrArg List.length ((ht k a ha).1.symm.trans (h ▸ (ht n b hb).1))
  simp only [spaces, List.length_replicate] at hl
  exact ⟨hl, (ht k a ha).2.symm.trans (h ▸ (ht n b hb).2)⟩

/-- No character of a text ends a line. -/
def Unbroken (text : List Char) : Prop := ∀ c ∈ text, isBreak c = false

theorem Unbroken.append (h : Unbroken a) (h' : Unbroken b) : Unbroken (a ++ b) :=
  List.forall_mem_append.mpr ⟨h, h'⟩

theorem unbroken_spaces (n : Nat) : Unbroken (spaces n) := by
  intro c hc
  rw [List.eq_of_mem_replicate hc]
  rfl

theorem Mark.forward_append (m : Mark) (a b : List Char) :
    m.forward (a ++ b) = (m.forward a).forward b := by
  simp only [forward, octets_append, List.length_append, Nat.add_assoc]

theorem Unbroken.over (h : Unbroken text) (m : Mark) : m.over text = m.forward text := by
  induction text generalizing m with
  | nil => rfl
  | cons c text ih =>
    obtain ⟨hc, ht⟩ := List.forall_mem_cons.mp h
    rw [Mark.over_cons hc, ih ht, ← Mark.forward_append, List.singleton_append]

@[simp]
theorem Mark.forward_column (m : Mark) (text : List Char) :
    (m.forward text).column = m.column + text.length := rfl

@[simp]
theorem Mark.forward_line (m : Mark) (text : List Char) : (m.forward text).line = m.line := rfl

@[simp]
theorem Mark.nextLine_column (m : Mark) (text : List Char) : (m.nextLine text).column = 0 := rfl

theorem Mark.upTo_over (m : Mark) (text : List Char) : m.UpTo (m.over text) := by
  induction text generalizing m with
  | nil => exact .refl m
  | cons c text ih =>
    cases h : isBreak c with
    | true => exact over_cons_break h m text ▸ (m.upTo_nextLine [c]).trans (ih _)
    | false => exact over_cons h m text ▸ (m.upTo_forward [c]).trans (ih _)

/-- The line breaks that are kept as they are where they stand in a scalar. -/
def isKeptBreak (c : Char) : Bool := isBreak c && isPlainText c

theorem isKeptBreak_iff : isKeptBreak c = true ↔ c = '\n' ∨ c = '\u2028' ∨ c = '\u2029' := by
  constructor
  · intro h
    simp only [isKeptBreak, isBreak, Bool.and_eq_true, Bool.or_eq_true, decide_eq_true_eq] at h
    obtain ⟨(((rfl | rfl) | rfl) | rfl) | rfl, hp⟩ := h
    · exact .inl rfl
    · cases hp
    · cases hp
    · exact .inr (.inl rfl)
    · exact .inr (.inr rfl)
  · rintro (rfl | rfl | rfl) <;> rfl

namespace Cursor

variable {a rest : List Char} {m : Mark}

theorem skip_append : (⟨a ++ rest, m⟩ : Cursor).skip a.length = ⟨rest, m.forward a⟩ := by
  rw [skip, List.drop_left, List.take_left]

theorem span_append (h : ∀ c ∈ a, kind c = true) (hr : ∀ c ∈ rest.head?, kind c = false) :
    (⟨a ++ rest, m⟩ : Cursor).span kind = (a, ⟨rest, m.forward a⟩) := by
  rw [span, takeWhile_append h hr, skip_append]

theorem skipWhile_append (h : ∀ c ∈ a, kind c = true) (hr : ∀ c ∈ rest.head?, kind c = false) :
    (⟨a ++ rest, m⟩ : Cursor).skipWhile kind = ⟨rest, m.forward a⟩ := by
  rw [skipWhile, span_append h hr]

theorem skipWhile_of_head (hr : ∀ c ∈ rest.head?, kind c = false) :
    (⟨rest, m⟩ : Cursor).skipWhile kind = ⟨rest, m⟩ :=
  skipWhile_append (a := []) nofun hr

theorem lineBreak_kept (h : isKeptBreak c = true) :
    (⟨c :: rest, m⟩ : Cursor).lineBreak = ([c], ⟨rest, m.nextLine [c]⟩) := by
  obtain rfl | rfl | rfl := isKeptBreak_iff.mp h <;> rfl

theorem lineBreak_none (h : ∀ c ∈ rest.head?, isBreak c = false) :
    (⟨rest, m⟩ : Cursor).lineBreak = ([], ⟨rest, m⟩) := by
  rw [lineBreak]
  split
  · next hr => cases hr; cases h _ rfl
  · next c rest hn hr =>
    cases hr
    have hc := h c rfl
    rw [if_neg (by rintro (rfl | rfl) <;> cases hc), if_neg (by simp [hc])]
  · rfl

/-- Away from the start of a line there is no document indicator. -/
theorem not_atDocumentIndicator (h : m.column ≠ 0) :
    (⟨rest, m⟩ : Cursor).atDocumentIndicator = false := by
  simp [atDocumentIndicator, isDocumentIndicator, h]

end Cursor
end ApiPresence.Yaml

import ApiPresence.Proofs.Basic
import ApiPresence.Proofs.Yaml.Lexeme.Gap
import ApiPresence.Yaml.Lexeme.Plain

namespace ApiPresence.Yaml

variable {gap rest word : List Char} {fuel : Nat} {m : Mark}

/-- Blanks and line breaks of any kind. -/
def IsSpace (gap : List Char) : Prop := ∀ c ∈ gap, isBlank c = true ∨ isBreak c = true

/-- The line break at the start of a gap, which may take two characters. -/
theorem Cursor.lineBreak_gap (hc : isBreak c = true) (hr : EndsGap rest) (gap : List Char)
    (m : Mark) :
    ∃ taken gap' kept m', gap = taken ++ gap' ∧ m.UpTo m' ∧
      (⟨c :: (gap ++ rest), m⟩ : Cursor).lineBreak = (kept, ⟨gap' ++ rest, m'⟩) := by
  rw [lineBreak]
  split
  · next more he =>
    have he : c :: (gap ++ rest) = '\r' :: '\n' :: more := he
    cases gap with
    | nil =>
      have hrest : rest = '\n' :: more := (List.cons.inj he).2
      subst hrest
      cases (hr '\n' rfl).2
    | cons d gap =>
      cases he
      exact ⟨['\n'], gap, _, _, rfl, m.upTo_nextLine _, rfl⟩
  · next x more _ he =>
    cases he
    refine ⟨[], gap, if c = '\u2028' ∨ c = '\u2029' then [c] else ['\n'], m.nextLine [c], rfl,
      m.upTo_nextLine _, ?_⟩
    rw [if_pos hc]
    split <;> rfl
  · next he => cases he

/-- A gap is read up to its end, where no line has to be indented. -/
theorem Gap.read_of_isSpace (hg : IsSpace gap) (hr : EndsGap rest) (hf : gap.length ≤ fuel)
    (start : Mark) (g : Gap) (m : Mark) :
    ∃ g' m', Gap.read (some (0, start)) fuel g ⟨gap ++ rest, m⟩ = .ok (g', ⟨rest, m'⟩) ∧
      m.UpTo m' := by
  induction fuel generalizing gap g m with
  | zero =>
    obtain rfl := List.length_eq_zero_iff.mp (Nat.le_zero.mp hf)
    exact ⟨g, m, rfl, .refl m⟩
  | succ fuel ih =>
    cases gap with
    | nil => exact ⟨g, m, read_nil hr .., .refl m⟩
    | cons c gap =>
      obtain ⟨hc, hgs⟩ := List.forall_mem_cons.mp hg
      have hl := Nat.le_of_succ_le_succ hf
      cases hb : isBlank c with
      | true =>
        obtain ⟨g', m', he, hm⟩ := ih hgs hl (g.addBlank c) (m.forward [c])
        refine ⟨g', m', ?_, (m.upTo_forward [c]).trans hm⟩
        simp only [List.cons_append, Gap.read, hb, Nat.not_lt_zero, false_and, and_false,
          reduceIte]
        exact he
      | false =>
        have hbreak : isBreak c = true := hc.resolve_left (by simp [hb])
        obtain ⟨taken, gap', kept, m₁, rfl, hm₁, hk⟩ := Cursor.lineBreak_gap hbreak hr gap m
        obtain ⟨g', m', he, hm⟩ := ih (fun x hx => hgs x (List.mem_append_right _ hx))
          (by rw [List.length_append] at hl; omega) (g.addBreak kept) m₁
        refine ⟨g', m', ?_, hm₁.trans hm⟩
        simp only [List.cons_append, Gap.read, hb, hbreak, hk, Bool.false_eq_true, reduceIte]
        exact he

namespace PlainScalar

/-- A character of a word that may stand in a flow collection. -/
def IsFlowChar (c : Char) : Prop :=
  isBlank c = false ∧ isBreak c = false ∧ c ≠ ':' ∧ isFlowIndicator c = false

/-- What follows a word: the end of the text, or an indicator of the flow collection around it. -/
def EndsWord (inFlow : Bool) (rest : List Char) : Prop :=
  ∀ c ∈ rest.head?, inFlow = true ∧ isFlowIndicator c = true

theorem EndsWord.endsGap (h : EndsWord inFlow rest) : EndsGap rest := by
  intro c hc
  have hi := (h c hc).2
  simp only [isFlowIndicator, List.mem_cons, List.not_mem_nil, or_false,
    decide_eq_true_eq] at hi
  rcases hi with rfl | rfl | rfl | rfl | rfl <;> exact ⟨rfl, rfl⟩

theorem EndsWord.stretch_eq (h : EndsWord inFlow rest) : stretch inFlow rest = [] := by
  cases rest with
  | nil => rfl
  | cons c rest =>
    obtain ⟨rfl, hc⟩ := h c rfl
    simp [stretch, hc]

theorem stretch_gap (hg : IsSpace gap) (h : EndsWord inFlow rest) :
    stretch inFlow (gap ++ rest) = [] := by
  cases gap with
  | nil => exact h.stretch_eq
  | cons c gap =>
    have hc : atSpace (c :: (gap ++ rest)) = true := by
      rw [atSpace, Bool.or_eq_true]
      exact hg c List.mem_cons_self
    rw [List.cons_append, stretch, hc]
    rfl

theorem not_atBadColon_cons (h : c ≠ ':') (inFlow : Bool) (rest : List Char) :
    atBadColon inFlow (c :: rest) = false := by
  unfold atBadColon
  split
  · next he => exact absurd (List.cons.inj he).1 h
  · rfl

theorem EndsWord.not_atBadColon (h : EndsWord inFlow rest) : atBadColon inFlow rest = false := by
  cases rest with
  | nil => rfl
  | cons c rest =>
    refine not_atBadColon_cons ?_ inFlow rest
    rintro rfl
    cases (h ':' rfl).2

theorem not_atBadColon_gap (hg : IsSpace gap) (h : EndsWord inFlow rest) :
    atBadColon inFlow (gap ++ rest) = false := by
  cases gap with
  | nil => exact h.not_atBadColon
  | cons c gap =>
    refine not_atBadColon_cons ?_ inFlow (gap ++ rest)
    rintro rfl
    rcases hg ':' List.mem_cons_self with hc | hc <;> cases hc

theorem stretch_word (hw : ∀ c ∈ word, IsFlowChar c) (h : stretch inFlow rest = []) :
    stretch inFlow (word ++ rest) = word := by
  induction word with
  | nil => exact h
  | cons c word ih =>
    obtain ⟨⟨hb, hk, hn, hi⟩, hw⟩ := List.forall_mem_cons.mp hw
    have hbad := not_atBadColon_cons hn inFlow (word ++ rest)
    simp only [List.cons_append, stretch, atSpace, hb, hk, hbad, hn, hi, ih hw, Bool.or_self,
      Bool.and_false, decide_false, Bool.false_and, Bool.false_eq_true, reduceIte]

/-- Behind a gap that ends a scalar, nothing more is read. -/
theorem readMore_end (h : EndsWord inFlow rest) (fuel : Nat) (stop : Mark) (g : Gap) (m : Mark) :
    readMore inFlow width start fuel stop g ⟨rest, m⟩ = .ok (⟨[], stop, g.broken⟩, ⟨rest, m⟩) := by
  cases fuel with
  | zero => rfl
  | succ fuel =>
    simp only [readMore, h.stretch_eq, List.length_nil, Cursor.skip, List.drop_zero,
      h.not_atBadColon, Bool.false_eq_true, reduceIte, ite_self]

/-- A word is read with the gap behind it, where no line has to be indented. -/
theorem read_word (hw : ∀ c ∈ word, IsFlowChar c) (hn : word ≠ []) (hs : word.head? ≠ some '#')
    (hg : IsSpace gap) (h : EndsWord inFlow rest)
    (hd : (⟨word ++ (gap ++ rest), m⟩ : Cursor).atDocumentIndicator = false) :
    ∃ broken m', PlainScalar.read inFlow 0 ⟨word ++ (gap ++ rest), m⟩ =
      .ok (⟨word, m.forward word, broken⟩, ⟨rest, m'⟩) ∧ (m.forward word).UpTo m' := by
  obtain ⟨g, m', hread, hm⟩ := Gap.read_of_isSpace hg h.endsGap
    (show gap.length ≤ (word ++ (gap ++ rest)).length by
      simp only [List.length_append]
      omega) m .empty (m.forward word)
  have hsharp : (⟨word ++ (gap ++ rest), m⟩ : Cursor).startsWith '#' = false := by
    rw [Cursor.startsWith, beq_eq_false_iff_ne, List.head?_append_of_ne_nil _ hn]
    exact hs
  have hempty : Gap.empty.folded = [] := rfl
  simp only [PlainScalar.read, readMore, hd, hsharp, stretch_word hw (stretch_gap hg h), hn,
    Cursor.skip_append, not_atBadColon_gap hg h, hread, ok_bind, readMore_end h, hempty,
    List.nil_append, List.append_nil, Nat.not_lt_zero, Bool.or_self, Bool.false_eq_true,
    decide_false, Bool.and_false, reduceIte]
  cases gap with
  | nil =>
    have hends : (!atSpace ([] ++ rest) || decide ([] ++ rest = [])) = true := by
      cases rest with
      | nil => rfl
      | cons c rest =>
        obtain ⟨hb, hk⟩ := h.endsGap c rfl
        simp [atSpace, hb, hk]
    exact ⟨false, _, if_pos hends, .refl _⟩
  | cons c gap =>
    have hspace : atSpace (c :: gap ++ rest) = true := by
      rw [List.cons_append, atSpace, Bool.or_eq_true]
      exact hg c List.mem_cons_self
    refine ⟨g.broken, m', if_neg ?_, hm⟩
    rw [hspace]
    exact Bool.false_ne_true

end PlainScalar
end ApiPresence.Yaml

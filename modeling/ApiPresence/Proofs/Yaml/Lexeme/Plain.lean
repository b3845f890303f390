import ApiPresence.Proofs.Basic
import ApiPresence.Proofs.Number
import ApiPresence.Proofs.Yaml.Lexeme.Gap
import ApiPresence.Yaml.Lexeme.Plain

namespace ApiPresence.Yaml

/-- A word of a scalar without quotes: neither its colons nor its number signs end anything. -/
structure IsWord (word : List Char) : Prop where
  ne_nil : word ≠ []
  solid : ∀ c ∈ word, isBlank c = false ∧ isBreak c = false
  inner : hasInnerIndicator (' ' :: word) = false

/-- Words on a line with spaces between them. -/
inductive Words : List Char → Prop
  | word {word : List Char} (h : IsWord word) : Words word
  | cons {word rest : List Char} {n : Nat} (h : IsWord word) (ht : Words rest) :
    Words (word ++ (spaces (n + 1) ++ rest))

namespace IsWord

theorem endsGap (h : IsWord word) : EndsGap (word ++ rest) :=
  endsGap_cons_append (fun c hc => h.solid c (List.mem_of_mem_head? hc)) h.ne_nil

theorem length_pos (h : IsWord word) : 0 < word.length := List.length_pos_iff.mpr h.ne_nil

theorem startsWith_sharp (h : IsWord word) (rest : List Char) (m : Mark) :
    (⟨word ++ rest, m⟩ : Cursor).startsWith '#' = false := by
  obtain ⟨c, word, rfl⟩ := List.exists_cons_of_ne_nil h.ne_nil
  have hi := h.inner
  simp only [hasInnerIndicator, Bool.or_eq_false_iff, Bool.and_eq_false_iff,
    decide_eq_false_iff_not] at hi
  obtain ⟨⟨-, hc | hc⟩, -⟩ := hi
  · simpa [Cursor.startsWith] using hc
  · cases hc

end IsWord

namespace Words

theorem endsGap (h : Words text) : EndsGap (text ++ rest) := by
  cases h with
  | word h => exact h.endsGap
  | cons h _ =>
    rw [List.append_assoc]
    exact h.endsGap

theorem ne_nil (h : Words text) : text ≠ [] := by
  cases h with
  | word h => exact h.ne_nil
  | cons h _ => exact List.append_ne_nil_of_left_ne_nil h.ne_nil _

end Words

theorem not_atSpace_cons (h : isBlank c = false ∧ isBreak c = false) (rest : List Char) :
    atSpace (c :: rest) = false := by
  rw [atSpace, h.1, h.2, Bool.false_or]

theorem startsBlank_eq (text : List Char) : startsBlank text = atSpace text := by
  cases text <;> rfl

theorem startsBlank_cons_append (h : startsBlank (text ++ ' ' :: rest) = false) :
    startsBlank text = false := by
  cases text with
  | nil => cases h
  | cons c text => exact h

theorem hasInnerIndicator_append_space (text : List Char)
    (h : hasInnerIndicator (text ++ ' ' :: rest) = false) :
    hasInnerIndicator text = false ∧ hasInnerIndicator (' ' :: rest) = false := by
  induction text with
  | nil => exact ⟨rfl, h⟩
  | cons a text ih =>
    cases text with
    | nil =>
      simp only [List.cons_append, List.nil_append, hasInnerIndicator, Bool.or_eq_false_iff] at h
      exact ⟨rfl, h.2⟩
    | cons b text =>
      simp only [List.cons_append, hasInnerIndicator, Bool.or_eq_false_iff] at h
      obtain ⟨⟨hc, hs⟩, ht⟩ := h
      obtain ⟨hl, hr⟩ := ih ht
      refine ⟨?_, hr⟩
      have hb : (b = ':' && startsBlank text) = false := by
        rw [Bool.and_eq_false_iff] at hc ⊢
        exact hc.imp_right startsBlank_cons_append
      simp only [hasInnerIndicator, hl, hb, hs, Bool.or_false]

theorem hasInnerIndicator_of_not_mem (hc : ':' ∉ text) (hs : '#' ∉ text) (previous : Char) :
    hasInnerIndicator (previous :: text) = false := by
  induction text generalizing previous with
  | nil => rfl
  | cons c text ih =>
    rw [List.mem_cons, not_or] at hc hs
    simp [hasInnerIndicator, Ne.symm hc.1, Ne.symm hs.1, ih hc.2 hs.2]

/-- What a text without quotes may be: nothing in it reads as an indicator. -/
structure IsInner (text : List Char) : Prop where
  head : ∀ c ∈ text.head?, c ≠ ' '
  last : ∀ c ∈ text.getLast?, c ≠ ' '
  solid : ∀ c ∈ text, c = ' ' ∨ isBlank c = false ∧ isBreak c = false
  inner : hasInnerIndicator (' ' :: text) = false

/-- What stands in front of spaces and what stands behind them have no indicator either. -/
theorem IsInner.of_gap (h : IsInner (word ++ (spaces (n + 1) ++ rest)))
    (hr : ∀ c ∈ rest.head?, c ≠ ' ') (hn : rest ≠ []) :
    hasInnerIndicator (' ' :: word) = false ∧ IsInner rest := by
  have hi : hasInnerIndicator (' ' :: word ++ ' ' :: (spaces n ++ rest)) = false := h.inner
  have hir : hasInnerIndicator ((' ' :: word ++ spaces n) ++ ' ' :: rest) = false := by
    have hs : (' ' :: word ++ spaces n) ++ ' ' :: rest =
        ' ' :: (word ++ (spaces (n + 1) ++ rest)) := by
      rw [spaces_succ']
      simp
    rw [hs]
    exact h.inner
  refine ⟨(hasInnerIndicator_append_space _ hi).1, hr, fun c hc => h.last c ?_,
    fun c hc => h.solid c (by simp [hc]), (hasInnerIndicator_append_space _ hir).2⟩
  rwa [← List.append_assoc, List.getLast?_append_of_ne_nil _ hn]

theorem words_of_isInner (h : IsInner text) (hn : text ≠ []) : Words text := by
  induction hl : text.length using Nat.strongRecOn generalizing text with
  | _ n ih =>
    subst hl
    obtain ⟨word, more, rfl, hw, hm⟩ := exists_split (· ≠ ' ') text
    have hs : ∀ c ∈ word, isBlank c = false ∧ isBreak c = false := fun c hc =>
      (h.solid c (List.mem_append_left _ hc)).resolve_left (by simpa using hw c hc)
    obtain ⟨gap, rest, rfl, hr⟩ := exists_spaces more
    cases gap with
    | zero =>
      cases rest with
      | nil =>
        have he : word ++ (spaces 0 ++ []) = word := List.append_nil word
        rw [he] at hn h ⊢
        exact .word ⟨hn, hs, h.inner⟩
      | cons c rest => exact absurd (by simpa using hm c rfl) (hr c rfl)
    | succ gap =>
      have hwn : word ≠ [] := by
        rintro rfl
        exact h.head ' ' rfl rfl
      have hrn : rest ≠ [] := by
        rintro rfl
        refine h.last ' ' ?_ rfl
        rw [List.append_nil, spaces_succ', ← List.append_assoc, List.getLast?_concat]
        rfl
      obtain ⟨hi, hrest⟩ := h.of_gap hr hrn
      refine .cons ⟨hwn, hs, hi⟩ (ih _ ?_ hrest hrn rfl)
      simp only [List.length_append, spaces, List.length_replicate]
      omega

namespace PlainScalar

variable {word text rest follow past : List Char} {broken : Bool} {width fuel : Nat}
  {start m : Mark}

/-- What ends a stretch: a blank, or a colon in front of one. -/
def endsStretch : List Char → Bool
  | ':' :: rest => atSpace rest
  | rest => atSpace rest

theorem stretch_of_endsStretch (h : endsStretch rest = true) : stretch false rest = [] := by
  unfold endsStretch at h
  split at h
  · simp [stretch, h]
  · cases rest with
    | nil => rfl
    | cons c rest => simp [stretch, h]

theorem stretch_append (hs : ∀ c ∈ word, isBlank c = false ∧ isBreak c = false)
    (hi : hasInnerIndicator (previous :: word) = false) (hr : endsStretch rest = true) :
    stretch false (word ++ rest) = word := by
  induction word generalizing previous with
  | nil => exact stretch_of_endsStretch hr
  | cons c word ih =>
    obtain ⟨hc, hw⟩ := List.forall_mem_cons.mp hs
    simp only [hasInnerIndicator, Bool.or_eq_false_iff] at hi
    have hcolon : (c = ':' && atSpace (word ++ rest)) = false := by
      cases word with
      | nil =>
        have hne : c ≠ ':' := by simpa [startsBlank] using hi.1.1
        simp [hne]
      | cons d word => simp [not_atSpace_cons (hw d List.mem_cons_self)]
    have hbad : atBadColon false (c :: (word ++ rest)) = false := by
      unfold atBadColon
      split <;> rfl
    rw [List.cons_append, stretch, not_atSpace_cons hc _, hbad, hcolon, ih hw hi.2]
    rfl

theorem not_atBadColon (text : List Char) : atBadColon false text = false := by
  unfold atBadColon
  split <;> rfl

/--
What stands behind a scalar that is read up to its end: a colon that makes it a key, or a line that
is indented less, whose indentation is read with it.
-/
inductive Follows (width : Nat) : (follow : List Char) → (broken : Bool) →
    (past rest : List Char) → Prop
  | colon {rest : List Char} (h : atSpace rest = true) :
    Follows width (':' :: rest) false [] (':' :: rest)
  | line {rest : List Char} {column : Nat} (h : column < width) (hr : EndsGap rest) :
    Follows width ('\n' :: (spaces column ++ rest)) true ('\n' :: spaces column) rest

theorem Follows.endsStretch (h : Follows width follow broken past rest) :
    endsStretch follow = true := by
  cases h with
  | colon h => exact h
  | line => rfl

theorem over_line (m : Mark) (column : Nat) : (m.over ('\n' :: spaces column)).column = column := by
  rw [Mark.over_cons_break rfl, (unbroken_spaces column).over, Mark.forward_column,
    Mark.nextLine_column, spaces, List.length_replicate, Nat.zero_add]

theorem readMore_word (h : IsWord word) (hr : endsStretch rest = true)
    (hd : (⟨word ++ rest, m⟩ : Cursor).atDocumentIndicator = false) (fuel : Nat) (stop : Mark)
    (g : Gap) : readMore false width start (fuel + 1) stop g ⟨word ++ rest, m⟩ = (do
      let (gap, after) ← Gap.read (some (width, start)) fuel .empty ⟨rest, m.forward word⟩
      if !atSpace rest || rest = [] then
        .ok (⟨g.folded ++ word, m.forward word, false⟩, ⟨rest, m.forward word⟩)
      else if after.mark.column < width then
        .ok (⟨g.folded ++ word, m.forward word, gap.broken⟩, after)
      else
        let (more, c) ← readMore false width start fuel (m.forward word) gap after
        .ok (⟨g.folded ++ word ++ more.text, more.stop, more.broken⟩, c)) := by
  simp only [readMore, hd, h.startsWith_sharp, stretch_append h.solid h.inner hr,
    Cursor.skip_append, not_atBadColon, h.ne_nil, Bool.or_self, Bool.false_eq_true, reduceIte,
    Bool.not_false, Bool.true_and, decide_eq_true_eq]

/-- Behind the last word. -/
theorem readMore_last (h : IsWord word) (hf : Follows width follow broken past rest)
    (hd : (⟨word ++ follow, m⟩ : Cursor).atDocumentIndicator = false)
    (hl : follow.length ≤ fuel) (stop : Mark) (g : Gap) :
    readMore false width start (fuel + 1) stop g ⟨word ++ follow, m⟩ =
      .ok (⟨g.folded ++ word, m.forward word, broken⟩, ⟨rest, (m.forward word).over past⟩) := by
  rw [readMore_word h hf.endsStretch hd]
  cases hf with
  | colon hr =>
    rw [Gap.read_nil (by rintro c ⟨⟩; exact ⟨rfl, rfl⟩)]
    rfl
  | @line rest column hc hr =>
    have hg : IsGap ('\n' :: spaces column) :=
      List.forall_mem_cons.mpr ⟨.inr rfl, isGap_spaces column⟩
    have hb : (('\n' :: spaces column).foldl Gap.add .empty).broken = true := by
      rw [List.foldl_cons, Gap.foldl_add_indentation rfl]
      rfl
    have hgl : ('\n' :: spaces column).length ≤ fuel := by
      simp only [List.length_append, List.length_cons] at hl ⊢
      omega
    have hcol : ((m.forward word).over ('\n' :: spaces column)).column < width := by
      rwa [over_line]
    have hat : atSpace ('\n' :: spaces column ++ rest) = true := rfl
    rw [← List.cons_append, Gap.read_append hg hr hgl, ok_bind]
    simp only [hat, hcol, hb, reduceIte]
    rfl

/-- Behind a word that another one follows. -/
theorem readMore_next (h : IsWord word) (n : Nat) (hr : EndsGap rest) (hn : rest ≠ [])
    (hw : width ≤ m.column + 1)
    (hd : (⟨word ++ (spaces (n + 1) ++ rest), m⟩ : Cursor).atDocumentIndicator = false)
    (hl : n < fuel) (stop : Mark) (g : Gap) :
    readMore false width start (fuel + 1) stop g ⟨word ++ (spaces (n + 1) ++ rest), m⟩ = (do
      let (more, c) ← readMore false width start fuel (m.forward word)
        ⟨spaces (n + 1), false, [], []⟩ ⟨rest, m.forward (word ++ spaces (n + 1))⟩
      .ok (⟨g.folded ++ word ++ more.text, more.stop, more.broken⟩, c)) := by
  have hm : (m.forward word).over (spaces (n + 1)) = m.forward (word ++ spaces (n + 1)) := by
    rw [(unbroken_spaces _).over, Mark.forward_append]
  have hnw : ¬ (m.forward (word ++ spaces (n + 1))).column < width := by
    have hwl := h.length_pos
    simp only [Mark.forward_column, List.length_append, spaces, List.length_replicate]
    omega
  have hat : atSpace (spaces (n + 1) ++ rest) = true := rfl
  have hg : (spaces (n + 1)).length ≤ fuel := by rwa [spaces, List.length_replicate]
  rw [readMore_word h rfl hd, Gap.read_append (isGap_spaces _) hr hg, ok_bind]
  simp only [hat, hm, hnw, hn, Bool.not_true, Bool.false_or, decide_false, Bool.false_eq_true,
    reduceIte, Gap.empty, Gap.foldl_add_spaces, List.nil_append, List.append_eq_nil_iff, and_false]

theorem readMore_words (ht : Words text) (hf : Follows width follow broken past rest)
    (hw : width ≤ m.column + 1)
    (hd : (⟨text ++ follow, m⟩ : Cursor).atDocumentIndicator = false)
    (hl : (text ++ follow).length < fuel) (stop : Mark) (g : Gap) :
    readMore false width start fuel stop g ⟨text ++ follow, m⟩ =
      .ok (⟨g.folded ++ text, m.forward text, broken⟩, ⟨rest, (m.forward text).over past⟩) := by
  -- the induction goes over the words: `m` and `fuel` are those in front of the next one
  induction ht generalizing fuel m stop g with
  | @word word h =>
    rw [List.length_append] at hl
    obtain ⟨fuel, rfl⟩ := Nat.exists_eq_add_one_of_ne_zero (Nat.ne_of_gt (Nat.zero_lt_of_lt hl))
    exact readMore_last h hf hd (by omega) stop g
  | @cons word more n h ht ih =>
    have hwl := h.length_pos
    simp only [List.length_append, spaces, List.length_replicate] at hl
    obtain ⟨fuel, rfl⟩ := Nat.exists_eq_add_one_of_ne_zero (Nat.ne_of_gt (Nat.zero_lt_of_lt hl))
    have hc : (m.forward (word ++ spaces (n + 1))).column = m.column + (word.length + (n + 1)) := by
      simp only [Mark.forward_column, List.length_append, spaces, List.length_replicate]
    have hm : (m.forward (word ++ spaces (n + 1))).forward more =
        m.forward (word ++ (spaces (n + 1) ++ more)) := by
      rw [← Mark.forward_append, List.append_assoc]
    have hle : (more ++ follow).length < fuel := by
      rw [List.length_append]
      omega
    have hi := ih (m := m.forward (word ++ spaces (n + 1))) (by omega)
      (Cursor.not_atDocumentIndicator (by omega)) hle (m.forward word)
      ⟨spaces (n + 1), false, [], []⟩
    rw [hm] at hi
    rw [List.append_assoc, List.append_assoc] at hd ⊢
    rw [readMore_next h n ht.endsGap (by simp [ht.ne_nil]) hw hd (by omega), hi, ok_bind]
    simp only [Gap.folded, Bool.not_false, reduceIte, List.append_assoc]

/-- A scalar of words is read up to its end. -/
theorem read_words (ht : Words text) (hf : Follows width follow broken past rest)
    (hw : width ≤ m.column + 1)
    (hd : (⟨text ++ follow, m⟩ : Cursor).atDocumentIndicator = false) :
    read false width ⟨text ++ follow, m⟩ =
      .ok (⟨text, m.forward text, broken⟩, ⟨rest, (m.forward text).over past⟩) :=
  readMore_words ht hf hw hd (Nat.lt_succ_self _) m .empty

end PlainScalar

/-- A text that reads as a scalar when it stands without quotes. -/
structure IsBare (text : List Char) : Prop where
  words : Words text
  leading : hasLeadingIndicator text = false
  allowed : ∀ c ∈ text, isPlainText c = true

/-- The indicators that no scalar without quotes starts with. -/
def leadingIndicators : List Char :=
  ['#', ',', '[', ']', '{', '}', '&', '*', '!', '|', '>', '\'', '"', '%', '@', '\x60']

theorem hasLeadingIndicator_cons (h : hasLeadingIndicator (c :: rest) = false) :
    c ∉ leadingIndicators ∧ (c ∈ ['?', ':', '-'] → startsBlank rest = false) := by
  unfold hasLeadingIndicator at h
  split at h
  · cases h
  · cases h
  · next hr =>
    cases hr
    simp only [Bool.or_eq_false_iff, decide_eq_false_iff_not, Bool.and_eq_false_imp,
      decide_eq_true_eq] at h
    exact h
  · next hr => cases hr

theorem isBare_of_isPlainAllowed (h : isPlainAllowed text = true) (hn : text ≠ []) :
    IsBare text := by
  simp only [isPlainAllowed, endsWith, Bool.and_eq_true, Bool.not_eq_true', List.all_eq_true] at h
  obtain ⟨⟨⟨⟨hp, hh⟩, hl⟩, hi⟩, ho⟩ := h
  refine ⟨words_of_isInner ⟨?_, ?_, ?_, ?_⟩ hn, hi, fun c hc => (hp c hc).1⟩
  · rintro c hc rfl
    rw [Option.mem_def.mp hc] at hh
    cases hh
  · rintro c hc rfl
    rw [Option.mem_def.mp hc] at hl
    cases hl
  · intro c hc
    obtain ⟨hpc, hbc⟩ := hp c hc
    exact or_iff_not_imp_left.mpr fun hs => ⟨not_isBlank_of_isPlainText hpc hs, hbc⟩
  · obtain ⟨c, text, rfl⟩ := List.exists_cons_of_ne_nil hn
    obtain ⟨hc, hb⟩ := hasLeadingIndicator_cons hi
    have hs : c ≠ '#' := by
      rintro rfl
      exact hc (by decide)
    have hcolon : (c = ':' && startsBlank text) = false :=
      Bool.and_eq_false_imp.mpr fun he => hb (by simp [of_decide_eq_true he])
    simp [hasInnerIndicator, ho, hs, hcolon]

theorem not_isSpace_of_isNumeral (h : isNumeral c = true) :
    isBlank c = false ∧ isBreak c = false := by
  constructor <;> (rw [← Bool.not_eq_true]; intro hc)
  · simp only [isBlank, Bool.or_eq_true, decide_eq_true_eq] at hc
    obtain rfl | rfl := hc <;> cases h
  · simp only [isBreak, Bool.or_eq_true, decide_eq_true_eq] at hc
    obtain (((rfl | rfl) | rfl) | rfl) | rfl := hc <;> cases h

theorem isPlainText_of_isNumeral (h : isNumeral c = true) : isPlainText c = true := by
  simp only [isNumeral, Bool.or_eq_true, decide_eq_true_eq, List.mem_cons, List.not_mem_nil,
    or_false] at h
  rcases h with h | rfl | rfl | rfl | rfl
  · simp only [Char.isDigit, Bool.and_eq_true, decide_eq_true_eq, ge_iff_le,
      UInt32.le_iff_toNat_le] at h
    simp only [isPlainText, Bool.or_eq_true, Bool.and_eq_true, decide_eq_true_eq]
    have hl : 48 ≤ c.toNat ∧ c.toNat ≤ 57 := h
    omega
  all_goals decide

theorem ne_of_isDigit {c x : Char} (h : c.isDigit = true) (hx : x.isDigit = false) : c ≠ x := by
  rintro rfl
  exact Bool.false_ne_true (hx.symm.trans h)

theorem hasLeadingIndicator_digit (h : c.isDigit = true) (rest : List Char) :
    hasLeadingIndicator (c :: rest) = false := by
  have hn (x : Char) (hx : x.isDigit = false) : c ≠ x := ne_of_isDigit h hx
  unfold hasLeadingIndicator
  split
  · next hc => cases hc; cases h
  · next hc => cases hc; cases h
  · next hc => cases hc; simp [hn]
  · rfl

theorem hasLeadingIndicator_minus (h : c.isDigit = true) (rest : List Char) :
    hasLeadingIndicator ('-' :: c :: rest) = false := by
  have hb : startsBlank (c :: rest) = false :=
    (startsBlank_eq _).trans <|
      not_atSpace_cons (not_isSpace_of_isNumeral (by rw [isNumeral, h, Bool.true_or])) rest
  unfold hasLeadingIndicator
  split
  · next hc => cases hc; cases h
  · next hc => cases hc
  · next hc => cases hc; simp [hb]
  · rfl

theorem isNumeral_of_mem_wholeOf (hc : c ∈ FloatNotation.wholeOf n) : isNumeral c = true := by
  by_contra h
  exact FloatNotation.not_mem_wholeOf (Bool.eq_false_iff.mpr h) n hc

theorem isBare_wholeOf (n : Int) : IsBare (FloatNotation.wholeOf n) := by
  have hs : ∀ c ∈ FloatNotation.wholeOf n, isBlank c = false ∧ isBreak c = false :=
    fun c hc => not_isSpace_of_isNumeral (isNumeral_of_mem_wholeOf hc)
  have hi : hasInnerIndicator (' ' :: FloatNotation.wholeOf n) = false :=
    hasInnerIndicator_of_not_mem (FloatNotation.not_mem_wholeOf rfl n)
      (FloatNotation.not_mem_wholeOf rfl n) ' '
  have hp : ∀ c ∈ FloatNotation.wholeOf n, isPlainText c = true :=
    fun c hc => isPlainText_of_isNumeral (isNumeral_of_mem_wholeOf hc)
  obtain ⟨c, digits, hd, hc⟩ := FloatNotation.digitsOf_eq_cons n.natAbs
  refine ⟨.word ⟨?_, hs, hi⟩, ?_, hp⟩
  · rw [FloatNotation.wholeOf, hd]
    split <;> exact List.cons_ne_nil _ _
  · rw [FloatNotation.wholeOf, hd]
    split
    · exact hasLeadingIndicator_minus hc digits
    · exact hasLeadingIndicator_digit hc digits

end ApiPresence.Yaml

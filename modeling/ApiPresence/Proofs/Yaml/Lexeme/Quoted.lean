import ApiPresence.Proofs.Basic
import ApiPresence.Proofs.Json.Lexeme
import ApiPresence.Proofs.Yaml.Lexeme.Gap
import ApiPresence.Yaml.Lexeme.Quoted
import Mathlib.Algebra.Group.Nat.Defs

namespace ApiPresence.Yaml.Quoted

open Text (digit? digit?_digitChar digits? digitChar hexDigits length_hexDigits)

variable {single : Bool} {written text gap read rest chunk : List Char} {start m : Mark}
  {fuel n : Nat} {c x : Char}

/-- Characters between quotes that read as one; they start with no blank and end no line. -/
structure Chunk (single : Bool) (chunk : List Char) (c : Char) : Prop where
  ne_nil : chunk ≠ []
  endsGap : EndsGap chunk
  unbroken : Unbroken chunk
  reads : ∀ start fuel rest m, readStretch single start (fuel + 1) ⟨chunk ++ rest, m⟩ = (do
    let (xs, broken, next) ← readStretch single start fuel ⟨rest, m.forward chunk⟩
    .ok (c :: xs, broken, next))

inductive Stretch (single : Bool) : (written text : List Char) → Prop
  | nil : Stretch single [] []
  | cons {chunk written text : List Char} {c : Char} (hc : Chunk single chunk c)
    (h : Stretch single written text) : Stretch single (chunk ++ written) (c :: text)

/-- A gap between quotes and what it reads as; a line behind a break is indented. -/
inductive Spacing : (gap read : List Char) → Prop
  | spaces (n : Nat) : Spacing (spaces (n + 1)) (spaces (n + 1))
  | breaks {c : Char} {breaks : List Char} (h : ∀ x ∈ c :: breaks, isKeptBreak x = true)
    (hn : c ≠ '\n') (n : Nat) : Spacing (c :: (breaks ++ Yaml.spaces (n + 1))) (c :: breaks)

/-- What stands between quotes, and the text that is read from it. -/
inductive Body (single : Bool) : (written text : List Char) → Prop
  | stretch {written text : List Char} (h : Stretch single written text) : Body single written text
  | gap {written text gap read more rest : List Char} (h : Stretch single written text)
    (hg : Spacing gap read) (he : EndsGap more) (hb : Body single more rest) :
    Body single (written ++ (gap ++ more)) (text ++ (read ++ rest))

/-- A text that no stretch goes on with. -/
def Stops (single : Bool) (rest : List Char) : Prop :=
  ∀ start fuel m, readStretch single start fuel ⟨rest, m⟩ = .ok ([], false, ⟨rest, m⟩)

theorem stops_of_atSpace (h : atSpace rest = true) : Stops single rest := by
  intro start fuel m
  cases fuel with
  | zero => rfl
  | succ fuel =>
    cases rest with
    | nil => rfl
    | cons c rest => simp only [readStretch, h, reduceIte]

theorem stops_quote (h : single = true → rest.head? ≠ some '\'') :
    Stops single (quote single :: rest) := by
  intro start fuel m
  cases fuel with
  | zero => rfl
  | succ fuel =>
    cases single with
    | true => simp [readStretch, quote, h rfl, atSpace, isBlank, isBreak]
    | false => simp [readStretch, quote, atSpace, isBlank, isBreak]

namespace Stretch

theorem unbroken (h : Stretch single written text) : Unbroken written := by
  induction h with
  | nil => exact nofun
  | cons hc _ ih => exact hc.unbroken.append ih

theorem length_le (h : Stretch single written text) : text.length ≤ written.length := by
  induction h with
  | nil => exact Nat.le_refl _
  | cons hc _ ih =>
    have hl := List.length_pos_iff.mpr hc.ne_nil
    rw [List.length_cons, List.length_append]
    omega

theorem endsGap (h : Stretch single written text) : EndsGap written := by
  cases h with
  | nil => exact nofun
  | cons hc _ => exact endsGap_cons_append hc.endsGap hc.ne_nil

theorem reads (h : Stretch single written text) (hr : Stops single rest)
    (hf : text.length ≤ fuel) (m : Mark) : readStretch single start fuel ⟨written ++ rest, m⟩ =
      .ok (text, false, ⟨rest, m.forward written⟩) := by
  induction h generalizing fuel m with
  | nil => exact hr start fuel m
  | cons hc _ ih =>
    cases fuel with
    | zero => cases hf
    | succ fuel =>
      rw [List.append_assoc, hc.reads, ih (Nat.le_of_succ_le_succ hf), ok_bind,
        Mark.forward_append]

end Stretch

namespace Spacing

theorem isGap (h : Spacing gap read) : IsGap gap := by
  cases h with
  | spaces n => exact isGap_spaces _
  | breaks h hn n =>
    rw [← List.cons_append]
    exact List.forall_mem_append.mpr ⟨fun x hx => .inr (h x hx), isGap_spaces _⟩

theorem folded (h : Spacing gap read) : (gap.foldl Gap.add .empty).folded = read := by
  cases h with
  | spaces n =>
    rw [Gap.empty, Gap.foldl_add_spaces]
    rfl
  | @breaks c breaks h hn n =>
    obtain ⟨hc, hb⟩ := List.forall_mem_cons.mp h
    have hbb : ∀ x ∈ breaks, isBreak x = true := fun x hx => isBreak_of_isKeptBreak (hb x hx)
    have hfirst : Gap.empty.add c = ⟨[], true, [c], []⟩ := by
      rw [Gap.add_break (isBreak_of_isKeptBreak hc)]
      rfl
    have hnn : [c] ≠ ['\n'] := by simpa using hn
    rw [List.foldl_cons, List.foldl_append, hfirst, Gap.foldl_add_breaks hbb _ rfl,
      Gap.foldl_add_indentation rfl]
    simp [Gap.folded, hn]

theorem column_ne_zero (h : Spacing gap read) (m : Mark) : (m.over gap).column ≠ 0 := by
  have hs (m : Mark) (n : Nat) : (m.over (Yaml.spaces (n + 1))).column ≠ 0 := by
    rw [(unbroken_spaces _).over, Mark.forward_column, Yaml.spaces, List.length_replicate]
    omega
  cases h with
  | spaces n => exact hs m n
  | breaks h hn n =>
    rw [← List.cons_append, Mark.over_append]
    exact hs _ n

theorem atSpace_append (h : Spacing gap read) : atSpace (gap ++ rest) = true := by
  cases h with
  | spaces n => rfl
  | breaks h hn n =>
    have hc := isBreak_of_isKeptBreak (h _ List.mem_cons_self)
    rw [List.cons_append, atSpace, hc, Bool.or_true]

theorem ne_nil (h : Spacing gap read) : gap ≠ [] := by
  cases h <;> exact List.cons_ne_nil _ _

end Spacing

theorem not_startsWith_quote (h : atSpace rest = true) (m : Mark) :
    (⟨rest, m⟩ : Cursor).startsWith (quote single) = false := by
  cases rest with
  | nil => rfl
  | cons c rest =>
    have hc : c ≠ quote single := by
      rintro rfl
      cases single <;> cases h
    simpa [Cursor.startsWith] using hc

theorem endsGap_quote (h : EndsGap written) : EndsGap (written ++ quote single :: rest) := by
  cases written with
  | nil =>
    rintro c ⟨⟩
    cases single <;> exact ⟨rfl, rfl⟩
  | cons c written => exact h

theorem readBody_body (h : Body single written text)
    (hr : single = true → rest.head? ≠ some '\'')
    (hc : m.column ≠ 0) (hf : written.length < fuel) :
    readBody single start fuel ⟨written ++ quote single :: rest, m⟩ =
      .ok (text, ⟨rest, (m.over written).forward [quote single]⟩) := by
  induction h generalizing fuel m with
  | @stretch written text h =>
    obtain ⟨fuel, rfl⟩ := Nat.exists_eq_add_one_of_ne_zero (Nat.ne_of_gt (Nat.zero_lt_of_lt hf))
    have hl := h.length_le
    rw [readBody, Cursor.not_atDocumentIndicator hc, h.reads (stops_quote hr) (by omega), ok_bind,
      h.unbroken.over]
    simp [Cursor.startsWith, Cursor.skip]
  | @gap written text gap read more _ h hg he hb ih =>
    have hl := h.length_le
    have hgl : 0 < gap.length := List.length_pos_iff.mpr hg.ne_nil
    simp only [List.length_append] at hf
    obtain ⟨fuel, rfl⟩ := Nat.exists_eq_add_one_of_ne_zero (Nat.ne_of_gt (Nat.zero_lt_of_lt hf))
    have hs : atSpace (gap ++ (more ++ quote single :: rest)) = true := hg.atSpace_append
    have hgf : gap.length ≤ fuel := by omega
    have hmf : more.length < fuel := by omega
    have hi := ih (hg.column_ne_zero (m.forward written)) hmf
    rw [List.append_assoc, List.append_assoc, readBody, Cursor.not_atDocumentIndicator hc,
      h.reads (stops_of_atSpace hs) (by omega), ok_bind, Mark.over_append, Mark.over_append,
      h.unbroken.over]
    simp only [not_startsWith_quote hs, Bool.false_eq_true, reduceIte, List.append_eq_nil_iff,
      List.cons_ne_nil, and_false, Gap.read_append hg.isGap (endsGap_quote he) hgf, ok_bind,
      hg.folded, hi, List.append_assoc]

/-- A quoted scalar is read up to its closing quote. -/
theorem read_body (h : Body single written text) (hr : single = true → rest.head? ≠ some '\'')
    (m : Mark) :
    Quoted.read single ⟨quote single :: (written ++ quote single :: rest), m⟩ =
      .ok (text, ⟨rest, ((m.forward [quote single]).over written).forward [quote single]⟩) := by
  refine readBody_body h hr ?_ ?_
  · exact Nat.succ_ne_zero _
  · simp only [List.length_cons, List.length_append]
    omega

theorem chunk_char (hb : isBlank c = false ∧ isBreak c = false) (hq : c ≠ quote single)
    (hs : single = false → c ≠ '\\') : Chunk single [c] c where
  ne_nil := List.cons_ne_nil _ _
  endsGap := by
    rintro x ⟨⟩
    exact hb
  unbroken := List.forall_mem_singleton.mpr hb.2
  reads start fuel rest m := by
    have hsp : atSpace (c :: rest) = false := by rw [atSpace, hb.1, hb.2, Bool.false_or]
    cases single with
    | true =>
      have hq : c ≠ '\'' := hq
      simp only [List.singleton_append, readStretch, hsp, hq, Bool.false_eq_true, decide_false,
        Bool.and_false, Bool.not_true, Bool.false_and, reduceIte]
      rfl
    | false =>
      have hq : c ≠ '"' := hq
      simp only [List.singleton_append, readStretch, hsp, hq, hs rfl, Bool.false_eq_true,
        decide_false, Bool.and_false, Bool.not_false, Bool.false_and, reduceIte]
      rfl

theorem chunk_quotes : Chunk true ['\'', '\''] '\'' where
  ne_nil := List.cons_ne_nil _ _
  endsGap := by
    rintro x ⟨⟩
    exact ⟨rfl, rfl⟩
  unbroken := List.forall_mem_cons.mpr ⟨rfl, List.forall_mem_singleton.mpr rfl⟩
  reads _ _ _ _ := rfl

/-- An escape of two characters, or with digits behind them. -/
theorem chunk_escape (he : ∀ start rest m, readEscape start ⟨'\\' :: x :: (digits ++ rest), m⟩ =
      .ok (c, ⟨rest, m.forward ('\\' :: x :: digits)⟩))
    (hx : isBreak x = false) (hd : Unbroken digits) : Chunk false ('\\' :: x :: digits) c where
  ne_nil := List.cons_ne_nil _ _
  endsGap := by
    rintro x ⟨⟩
    exact ⟨rfl, rfl⟩
  unbroken := List.forall_mem_cons.mpr ⟨rfl, List.forall_mem_cons.mpr ⟨hx, hd⟩⟩
  reads start fuel rest m := by
    have hs : atSpace ('\\' :: x :: (digits ++ rest)) = false := rfl
    simp [readStretch, hs, hx, he]
    rfl

theorem chunk_letter (h : escape? x = some (.inl c)) (hx : isBreak x = false) :
    Chunk false ['\\', x] c := by
  refine chunk_escape (fun start rest m => ?_) hx nofun
  simp [readEscape, h, Cursor.skip]

theorem toNat_valid (c : Char) :
    ¬ ((0xd800 ≤ c.toNat ∧ c.toNat ≤ 0xdfff) ∨ 0x10ffff < c.toNat) := by
  have hv : c.toNat < 0xd800 ∨ 0xdfff < c.toNat ∧ c.toNat < 0x110000 := c.valid
  omega

theorem chunk_digits (h : escape? x = some (.inr digits.length)) (hx : isBreak x = false)
    (hd : Unbroken digits) (hv : digits? 16 digits = some c.toNat) :
    Chunk false ('\\' :: x :: digits) c := by
  refine chunk_escape (fun start rest m => ?_) hx hd
  have hs : (⟨'\\' :: x :: (digits ++ rest), m⟩ : Cursor).skip 2 =
      ⟨digits ++ rest, m.forward ['\\', x]⟩ := rfl
  have hm : (m.forward ['\\', x]).forward digits = m.forward ('\\' :: x :: digits) :=
    (m.forward_append ['\\', x] digits).symm
  have hh : hexadecimal? digits.length (digits ++ rest) = some c.toNat := by
    rw [hexadecimal?, List.take_left, if_pos rfl, hv]
  simp only [readEscape, List.getElem?_cons_succ, List.getElem?_cons_zero, Option.bind_some, h,
    hs, hh, toNat_valid, reduceIte, Char.ofNat_toNat, Cursor.skip_append, hm]

theorem foldlM_hexDigits (n k value : Nat) :
    (hexDigits true n k).foldlM (fun v c => (digit? 16 c).map (v * 16 + ·)) value =
      some (value * 16 ^ k + n % 16 ^ k) := by
  induction k generalizing n value with
  | zero => simp [hexDigits, Nat.mod_one]
  | succ k ih =>
    have hd : digit? 16 (digitChar true (n % 16)) = some (n % 16) :=
      digit?_digitChar true (Nat.mod_lt n (by decide))
    have hm : n % 16 ^ (k + 1) = n % 16 + 16 * (n / 16 % 16 ^ k) := by
      rw [Nat.pow_succ', Nat.mod_mul]
    have hp : value * 16 ^ (k + 1) = value * 16 ^ k * 16 := by rw [Nat.pow_succ, Nat.mul_assoc]
    rw [hexDigits, List.foldlM_append, ih]
    simp only [Option.bind_eq_bind, Option.bind_some, List.foldlM_cons, List.foldlM_nil, hd,
      Option.map_some, Option.pure_def, Option.some.injEq]
    omega

theorem unbroken_hexDigits (n k : Nat) : Unbroken (hexDigits true n k) := by
  have hd : ∀ d < 16, isBreak (digitChar true d) = false := by decide
  induction k generalizing n with
  | zero => exact nofun
  | succ k ih =>
    exact (ih _).append (List.forall_mem_singleton.mpr (hd _ (Nat.mod_lt n (by decide))))

theorem digits?_hexDigits (h : n < 16 ^ (k + 1)) :
    digits? 16 (hexDigits true n (k + 1)) = some n := by
  have hf := foldlM_hexDigits n (k + 1) 0
  rw [Nat.mod_eq_of_lt h, Nat.zero_mul, Nat.zero_add] at hf
  unfold digits?
  split
  · next hn =>
    have hl := length_hexDigits true n (k + 1)
    rw [hn] at hl
    cases hl
  · exact hf

theorem chunk_hexDigits (h : escape? x = some (.inr (k + 1))) (hx : isBreak x = false)
    (hc : c.toNat < 16 ^ (k + 1)) :
    Chunk false ('\\' :: x :: hexDigits true c.toNat (k + 1)) c :=
  chunk_digits (by rw [h, length_hexDigits true]) hx (unbroken_hexDigits _ _) (digits?_hexDigits hc)

/-- A character that is written between double quotes is read as itself; spaces are no chunks. -/
theorem chunk_escaped (hs : c ≠ ' ') : Chunk false (Yaml.escape c) c := by
  unfold Yaml.escape
  split
  case h_15 _ _ _ hn _ _ _ _ hq hb _ hl hp =>
    split
    · next ht =>
      have hk : isBreak c = false := by
        by_contra h
        have hc : isKeptBreak c = true := Bool.and_eq_true_iff.mpr ⟨eq_true_of_ne_false h, ht⟩
        obtain h | h | h := isKeptBreak_iff.mp hc
        · exact hn h
        · exact hl h
        · exact hp h
      exact chunk_char ⟨not_isBlank_of_isPlainText ht hs, hk⟩ hq fun _ => hb
    · next ht =>
      have hw : c.toNat < 0x10000 := by
        by_contra h
        exact ht (by simp [isPlainText, Nat.not_lt.mp h])
      split
      · exact chunk_hexDigits rfl rfl (by omega)
      · split
        · exact chunk_hexDigits rfl rfl (by omega)
        · omega
  all_goals exact chunk_letter rfl rfl

namespace Body

theorem nil : Body single [] [] := .stretch .nil

theorem cons (hc : Chunk single chunk c) (h : Body single written text) :
    Body single (chunk ++ written) (c :: text) := by
  cases h with
  | stretch h => exact .stretch (.cons hc h)
  | gap h hg he hb =>
    rw [← List.append_assoc, ← List.cons_append]
    exact .gap (.cons hc h) hg he hb

theorem spacing (hg : Spacing gap read) (he : EndsGap written) (h : Body single written text) :
    Body single (gap ++ written) (read ++ text) :=
  .gap .nil hg he h

/-- A space in front of a body joins the spaces that it starts with. -/
theorem space (he : ∀ x ∈ written.head?, isBreak x = false) (h : Body single written text) :
    Body single (' ' :: written) (' ' :: text) := by
  have hs : Spacing [' '] [' '] := .spaces 0
  cases h with
  | stretch h => exact spacing hs h.endsGap (.stretch h)
  | gap h hg he' hb =>
    cases h with
    | cons hc h =>
      have hst := Stretch.cons hc h
      refine spacing hs (endsGap_cons_append hst.endsGap ?_) (.gap hst hg he' hb)
      exact List.append_ne_nil_of_left_ne_nil hc.ne_nil _
    | nil =>
      cases hg with
      | spaces n => exact spacing (.spaces (n + 1)) he' hb
      | breaks hk hn n =>
        have hx := he _ rfl
        rw [isBreak_of_isKeptBreak (hk _ List.mem_cons_self)] at hx
        cases hx

end Body

theorem unbroken_escape (c : Char) : Unbroken (Yaml.escape c) := by
  by_cases hc : c = ' '
  · subst hc
    exact List.forall_mem_singleton.mpr rfl
  · exact (chunk_escaped hc).unbroken

theorem unbroken_escaped (text : List Char) : Unbroken (text.flatMap Yaml.escape) := by
  intro x hx
  obtain ⟨c, -, hc⟩ := List.mem_flatMap.mp hx
  exact unbroken_escape c x hc

theorem body_escaped (text : List Char) : Body false (text.flatMap Yaml.escape) text := by
  induction text with
  | nil => exact .nil
  | cons c text ih =>
    rw [List.flatMap_cons]
    by_cases hc : c = ' '
    · subst hc
      exact ih.space fun x hx => unbroken_escaped text x (List.mem_of_mem_head? hx)
    · exact .cons (chunk_escaped hc) ih

theorem hasPair_cons (h : hasPair p q (a :: rest) = false) :
    (p a = true → ∀ b ∈ rest.head?, q b = false) ∧ hasPair p q rest = false := by
  cases rest with
  | nil => exact ⟨fun _ => nofun, rfl⟩
  | cons b rest =>
    rw [hasPair, Bool.or_eq_false_iff, Bool.and_eq_false_imp] at h
    refine ⟨fun ha x hx => ?_, h.2⟩
    cases hx
    exact h.1 ha

/-- What single quotes keep. -/
structure IsKept (text : List Char) : Prop where
  plain : ∀ c ∈ text, isPlainText c = true
  newline : '\n' ∉ text
  spaceBreak : hasPair isSpace isBreak text = false
  breakSpace : hasPair isBreak isSpace text = false

theorem IsKept.tail (h : IsKept (c :: text)) : IsKept text where
  plain := (List.forall_mem_cons.mp h.plain).2
  newline := fun hm => h.newline (List.mem_cons_of_mem _ hm)
  spaceBreak := (hasPair_cons h.spaceBreak).2
  breakSpace := (hasPair_cons h.breakSpace).2

theorem singleQuotedBody_break (h : isBreak c = true) (indent : Nat) (afterBreak : Bool) :
    singleQuotedBody indent afterBreak (c :: text) = c :: singleQuotedBody indent true text := by
  rw [singleQuotedBody, if_pos h]

theorem singleQuotedBody_char (h : isBreak c = false) (indent : Nat) :
    singleQuotedBody indent false (c :: text) =
      (if c = '\'' then ['\'', '\''] else [c]) ++ singleQuotedBody indent false text := by
  rw [singleQuotedBody, h]
  rfl

theorem singleQuotedBody_indented (h : ∀ c ∈ text.head?, isBreak c = false) (indent : Nat) :
    singleQuotedBody indent true text = spaces indent ++ singleQuotedBody indent false text := by
  cases text with
  | nil => exact (List.append_nil _).symm
  | cons c text =>
    have hc := h c rfl
    rw [singleQuotedBody_char hc, singleQuotedBody, hc]
    simp

theorem head?_singleQuotedBody (h : ∀ c ∈ text.head?, isBreak c = false) (indent : Nat) :
    ∀ x ∈ (singleQuotedBody indent false text).head?, isBreak x = false := by
  cases text with
  | nil => exact nofun
  | cons c text =>
    have hc := h c rfl
    rw [singleQuotedBody_char hc]
    split
    · rintro x ⟨⟩
      rfl
    · rintro x ⟨⟩
      exact hc

/-- The breaks at the start of a text, and the body behind them, whose line is indented. -/
structure Broken (indent : Nat) (text breaks more rest : List Char) : Prop where
  eq : text = breaks ++ rest
  kept : ∀ x ∈ breaks, isKeptBreak x = true
  written : singleQuotedBody indent true text = breaks ++ (spaces indent ++ more)
  endsGap : EndsGap more
  body : Body true more rest

theorem chunk_single (hp : isPlainText c = true) (hb : isBreak c = false) (hs : c ≠ ' ') :
    Chunk true (if c = '\'' then ['\'', '\''] else [c]) c := by
  split
  · next hc => exact hc ▸ chunk_quotes
  · next hc => exact chunk_char ⟨not_isBlank_of_isPlainText hp hs, hb⟩ hc nofun

/-- A text in single quotes is a body, and so is what follows a line break in it. -/
theorem body_singleQuoted (h : IsKept text) (n : Nat) :
    Body true (singleQuotedBody (n + 1) false text) text ∧
      ((∀ c ∈ text.head?, c ≠ ' ') → ∃ breaks more rest, Broken (n + 1) text breaks more rest) := by
  induction text with
  | nil => exact ⟨.nil, fun _ => ⟨[], [], [], rfl, nofun, (List.append_nil _).symm, nofun, .nil⟩⟩
  | cons c text ih =>
    obtain ⟨hbody, hmore⟩ := ih h.tail
    have hp := h.plain c List.mem_cons_self
    cases hb : isBreak c with
    | true =>
      have hk : isKeptBreak c = true := Bool.and_eq_true_iff.mpr ⟨hb, hp⟩
      have hn : c ≠ '\n' := fun he => h.newline (he ▸ List.mem_cons_self)
      obtain ⟨breaks, more, rest, rfl, hkb, hw, he, hr⟩ :=
        hmore fun x hx hxs =>
          absurd ((hasPair_cons h.breakSpace).1 hb x hx) (by simp [hxs, isSpace])
      have hks : ∀ x ∈ c :: breaks, isKeptBreak x = true := List.forall_mem_cons.mpr ⟨hk, hkb⟩
      have hg : Spacing (c :: (breaks ++ spaces (n + 1))) (c :: breaks) := .breaks hks hn n
      constructor
      · rw [singleQuotedBody_break hb, hw, ← List.append_assoc, ← List.cons_append,
        ← List.cons_append]
        exact hr.spacing hg he
      · intro _
        refine ⟨c :: breaks, more, rest, rfl, hks, ?_, he, hr⟩
        rw [singleQuotedBody_break hb, hw, List.cons_append]
    | false =>
      have hbody' : Body true (singleQuotedBody (n + 1) false (c :: text)) (c :: text) := by
        rw [singleQuotedBody_char hb]
        by_cases hs : c = ' '
        · subst hs
          exact hbody.space (head?_singleQuotedBody ((hasPair_cons h.spaceBreak).1 rfl) _)
        · exact .cons (chunk_single hp hb hs) hbody
      refine ⟨hbody', fun hs => ⟨[], _, _, rfl, nofun, singleQuotedBody_indented ?_ _, ?_, hbody'⟩⟩
      · rintro x ⟨⟩
        exact hb
      · have hc := chunk_single hp hb (hs c rfl)
        rw [singleQuotedBody_char hb]
        exact endsGap_cons_append hc.endsGap hc.ne_nil

end ApiPresence.Yaml.Quoted

import ApiPresence.Proofs.Basic
import ApiPresence.Proofs.Yaml.Lexeme.Gap
import ApiPresence.Yaml.Lexeme.Block

namespace ApiPresence.Yaml.Block

variable {text line breaks rest : List Char} {start m : Mark} {fuel width column : Nat} {c : Char}
  {chomping : Chomping} {pending : Pending} {margin : Margin}

/-- How the end of a text has to be kept. -/
def chompingOf (text : List Char) : Chomping :=
  if !endsWith isBreak text then .strip else if endsInBlankLine text then .keep else .clip

/-- The indentation that has to be given for a text, as its first line does not show it. -/
def indentationOf (text : List Char) : Option Nat :=
  if text.head?.any (fun c => isSpace c || isBreak c) then some 2 else none

theorem readHeader_hints (text rest : List Char) (m : Mark) :
    readHeader start ⟨blockHints text ++ '\n' :: rest, m⟩ =
      .ok (⟨chompingOf text, indentationOf text⟩, ⟨'\n' :: rest, m.forward (blockHints text)⟩) := by
  simp only [blockHints, chompingOf, indentationOf]
  cases text.head?.any (fun c => isSpace c || isBreak c) <;> cases endsWith isBreak text <;>
    cases endsInBlankLine text <;> rfl

/-- The indentation of a line is read, up to a width. -/
theorem skipIndentation_spaces (hm : m.column = 0) (hc : column ≤ width)
    (hr : column < width → ∀ c ∈ rest.head?, c ≠ ' ') :
    skipIndentation (some width) ⟨spaces column ++ rest, m⟩ =
      ⟨rest, m.forward (spaces column)⟩ := by
  have hs : min ((spaces column ++ rest).takeWhile (· = ' ')).length (width - m.column) =
      (spaces column).length := by
    rw [List.takeWhile_append_of_pos (by simp [spaces]), List.length_append, hm, Nat.sub_zero]
    simp only [spaces, List.length_replicate]
    rcases Nat.lt_or_eq_of_le hc with hlt | rfl
    · have ht : rest.takeWhile (· = ' ') = [] := by
        cases rest with
        | nil => rfl
        | cons c rest => exact List.takeWhile_cons_of_neg (by simpa using hr hlt c rfl)
      rw [ht, List.length_nil]
      omega
    · omega
  rw [skipIndentation]
  simp only [hs]
  exact Cursor.skip_append

theorem forward_spaces_column (m : Mark) (n : Nat) :
    (m.forward (spaces n)).column = m.column + n := by
  rw [Mark.forward_column, spaces, List.length_replicate]

/-- A line that is not blank ends a margin behind its indentation. -/
theorem readMargin_line (hm : m.column = 0) (hc : column ≤ width)
    (hr : ∀ c ∈ rest.head?, isBreak c = false)
    (hb : column < width → ∀ c ∈ rest.head?, isBlank c = false) (start : Mark) (fuel : Nat)
    (margin : Margin) :
    readMargin (some width) start (fuel + 1) margin ⟨spaces column ++ rest, m⟩ =
      .ok ({ margin with widest := max margin.widest column },
        ⟨rest, m.forward (spaces column)⟩) := by
  have hs : skipIndentation (some width) ⟨spaces column ++ rest, m⟩ =
      ⟨rest, m.forward (spaces column)⟩ := by
    refine skipIndentation_spaces hm hc fun h c hx => ?_
    rintro rfl
    cases hb h _ hx
  have hcol : (m.forward (spaces column)).column = column := by
    rw [forward_spaces_column, hm, Nat.zero_add]
  have ht : (decide (column < width) && (rest.head? == some '\t')) = false := by
    rw [Bool.and_eq_false_imp]
    intro hlt
    by_contra h
    cases hb (of_decide_eq_true hlt) '\t' (by simpa using h)
  simp only [readMargin, hs, hcol, Option.all_some, Cursor.startsWith, ht,
    Cursor.lineBreak_none hr, Bool.false_eq_true, reduceIte]

theorem readMargin_break (h : isKeptBreak c = true) (hm : m.column = 0) (start : Mark)
    (fuel : Nat) (margin : Margin) :
    readMargin (some width) start (fuel + 1) margin ⟨c :: rest, m⟩ =
      readMargin (some width) start fuel
        ⟨margin.breaks ++ [c], max margin.widest 0, m.nextLine [c]⟩ ⟨rest, m.nextLine [c]⟩ := by
  have hb := isBreak_of_isKeptBreak h
  have hns : c ≠ ' ' := by
    rintro rfl
    cases hb
  have hnt : c ≠ '\t' := by
    rintro rfl
    cases hb
  have hs : skipIndentation (some width) ⟨spaces 0 ++ c :: rest, m⟩ =
      ⟨c :: rest, m.forward (spaces 0)⟩ := by
    refine skipIndentation_spaces hm (Nat.zero_le _) fun _ x hx => ?_
    cases hx
    exact hns
  have hs' : skipIndentation (some width) ⟨c :: rest, m⟩ = ⟨c :: rest, m⟩ := hs
  simp [readMargin, hs', hm, Cursor.startsWith, hnt, Cursor.lineBreak_kept h]

/-- Blank lines, and the indentation of the line behind them. -/
theorem readMargin_append (hb : ∀ x ∈ breaks, isKeptBreak x = true) (hm : m.column = 0)
    (hc : column ≤ width) (hr : ∀ c ∈ rest.head?, isBreak c = false)
    (hs : column < width → ∀ c ∈ rest.head?, isBlank c = false) (hf : breaks.length < fuel)
    (start : Mark) (margin : Margin) : ∃ widest stop m', m'.column = column ∧
      readMargin (some width) start fuel margin ⟨breaks ++ (spaces column ++ rest), m⟩ =
        .ok (⟨margin.breaks ++ breaks, widest, stop⟩, ⟨rest, m'⟩) := by
  obtain ⟨fuel, rfl⟩ := Nat.exists_eq_add_one_of_ne_zero (Nat.ne_of_gt (Nat.zero_lt_of_lt hf))
  induction breaks generalizing fuel margin m with
  | nil =>
    refine ⟨max margin.widest column, margin.stop, m.forward (spaces column), ?_, ?_⟩
    · rw [forward_spaces_column, hm, Nat.zero_add]
    · rw [List.nil_append, readMargin_line hm hc hr hs, List.append_nil]
  | cons x breaks ih =>
    obtain ⟨hx, hbs⟩ := List.forall_mem_cons.mp hb
    obtain ⟨fuel, rfl⟩ := Nat.exists_eq_add_one_of_ne_zero
      (Nat.ne_of_gt (Nat.zero_lt_of_lt (Nat.lt_of_succ_lt_succ hf)))
    obtain ⟨widest, stop, m', hm', h⟩ := ih hbs (m.nextLine_column [x])
      ⟨margin.breaks ++ [x], max margin.widest 0, m.nextLine [x]⟩ fuel (Nat.lt_of_succ_lt_succ hf)
    refine ⟨widest, stop, m', hm', ?_⟩
    rw [List.cons_append, readMargin_break hx hm, h, List.append_assoc, List.singleton_append]

theorem blockBody_break (h : isBreak c = true) (indent : Nat) (afterBreak : Bool) :
    blockBody indent afterBreak (c :: text) = c :: blockBody indent true text := by
  rw [blockBody, if_pos h]

theorem blockBody_breaks (h : ∀ x ∈ breaks, isBreak x = true) (indent : Nat) (text : List Char) :
    blockBody indent true (breaks ++ text) = breaks ++ blockBody indent true text := by
  induction breaks with
  | nil => rfl
  | cons x breaks ih =>
    obtain ⟨hx, hb⟩ := List.forall_mem_cons.mp h
    rw [List.cons_append, blockBody_break hx, ih hb, List.cons_append]

theorem blockBody_line (h : Unbroken line) (indent : Nat) (text : List Char) :
    blockBody indent false (line ++ text) = line ++ blockBody indent false text := by
  induction line with
  | nil => rfl
  | cons x line ih =>
    obtain ⟨hx, hl⟩ := List.forall_mem_cons.mp h
    rw [List.cons_append, blockBody, hx, ih hl]
    rfl

theorem blockBody_indented (hn : text ≠ []) (h : ∀ c ∈ text.head?, isBreak c = false)
    (indent : Nat) :
    blockBody indent true text = spaces indent ++ blockBody indent false text := by
  obtain ⟨c, text, rfl⟩ := List.exists_cons_of_ne_nil hn
  have hc := h c rfl
  simp [blockBody, hc]

theorem head?_blockBody (hn : text ≠ []) (h : ∀ c ∈ text.head?, isBreak c = false)
    (indent : Nat) (rest : List Char) :
    (blockBody indent false text ++ rest).head? = text.head? := by
  obtain ⟨c, text, rfl⟩ := List.exists_cons_of_ne_nil hn
  have hc := h c rfl
  simp [blockBody, hc]

/-- A line and the margin behind it. -/
theorem readLines_line (hl : Unbroken line) (hb : isKeptBreak c = true)
    (hm : m.column = width) (chomping : Chomping) (start : Mark) (fuel : Nat) (pending : Pending)
    (margin : Margin) (rest : List Char) : ∃ blank,
      readLines false chomping width start (fuel + 1) pending margin ⟨line ++ c :: rest, m⟩ = (do
        let (margin', next) ← readMargin (some width) start fuel
          ⟨[], 0, (m.forward line).nextLine [c]⟩ ⟨rest, (m.forward line).nextLine [c]⟩
        let (more, stop, next) ← readLines false chomping width start fuel ⟨[c], blank⟩ margin' next
        .ok (pending.lineBreak ++ margin.breaks ++ line ++ more, stop, next)) := by
  refine ⟨(line ++ c :: rest).head?.any isBlank, ?_⟩
  have hs : (⟨line ++ c :: rest, m⟩ : Cursor).span (fun x => !isBreak x) =
      (line, ⟨c :: rest, m.forward line⟩) := by
    refine Cursor.span_append (fun x hx => by rw [hl x hx]; rfl) ?_
    rintro x ⟨⟩
    rw [isBreak_of_isKeptBreak hb]
    rfl
  simp [readLines, hm, hs, Cursor.lineBreak_kept hb, join]

/-- What is left of the line breaks at the end. -/
def Chomping.keeps (lineBreak breaks : List Char) : Chomping → List Char
  | strip => []
  | clip => lineBreak
  | keep => lineBreak ++ breaks

theorem readLines_end (hm : m.column ≠ width) (chomping : Chomping) (start : Mark) (fuel : Nat)
    (pending : Pending) (margin : Margin) :
    readLines false chomping width start (fuel + 1) pending margin ⟨rest, m⟩ =
      .ok (chomping.keeps pending.lineBreak margin.breaks, margin.stop, ⟨rest, m⟩) := by
  simp only [readLines, hm, false_and, reduceIte]
  cases chomping <;> rfl

/-- Lines, of which the first starts at the cursor, are read as a text, up to a last one. -/
def ReadsLines (chomping : Chomping) (width column : Nat) (rest written text : List Char) : Prop :=
  ∀ ⦃fuel : Nat⦄ ⦃m : Mark⦄ (start : Mark) (pending : Pending) (margin : Margin),
    m.column = width → text.length < fuel → ∃ stop m', m'.column = column ∧
      readLines false chomping width start fuel pending margin ⟨written, m⟩ =
        .ok (pending.lineBreak ++ margin.breaks ++ text, stop, ⟨rest, m'⟩)

/-- The last line that holds text, and the blank lines behind it. -/
theorem readsLines_last (hl : Unbroken line) (hb : isKeptBreak c = true)
    (hbs : ∀ x ∈ breaks, isKeptBreak x = true) (hc : column < width) (hr : EndsGap rest)
    (hs : breaks.length < (line ++ chomping.keeps [c] breaks).length) :
    ReadsLines chomping width column rest (line ++ c :: (breaks ++ (spaces column ++ rest)))
      (line ++ chomping.keeps [c] breaks) := by
  intro fuel m start pending margin hm hf
  obtain ⟨fuel, rfl⟩ := Nat.exists_eq_add_of_lt hf
  have hbf : breaks.length < (line ++ chomping.keeps [c] breaks).length + fuel := by omega
  obtain ⟨blank, h⟩ := readLines_line hl hb hm chomping start
    ((line ++ chomping.keeps [c] breaks).length + fuel) pending margin
    (breaks ++ (spaces column ++ rest))
  obtain ⟨widest, stop, m', hm', hmargin⟩ := readMargin_append hbs
    (Mark.nextLine_column (m.forward line) [c]) (Nat.le_of_lt hc) (fun x hx => (hr x hx).2)
    (fun _ x hx => (hr x hx).1) hbf start ⟨[], 0, (m.forward line).nextLine [c]⟩
  obtain ⟨fuel', hf'⟩ := Nat.exists_eq_add_one_of_ne_zero (Nat.ne_of_gt (Nat.zero_lt_of_lt hbf))
  refine ⟨stop, m', hm', ?_⟩
  rw [h, hmargin, ok_bind, hf']
  simp only [readLines_end (Nat.ne_of_lt (hm' ▸ hc)), ok_bind, List.nil_append, List.append_assoc]

/-- A line that further text follows, perhaps behind blank lines. -/
theorem readsLines_next (hl : Unbroken line) (hb : isKeptBreak c = true)
    (hbs : ∀ x ∈ breaks, isKeptBreak x = true) (hw : ∀ x ∈ written.head?, isBreak x = false)
    (h : ReadsLines chomping width column rest written text) :
    ReadsLines chomping width column rest (line ++ c :: (breaks ++ (spaces width ++ written)))
      (line ++ c :: (breaks ++ text)) := by
  intro fuel m start pending margin hm hf
  simp only [List.length_append, List.length_cons] at hf
  obtain ⟨fuel, rfl⟩ := Nat.exists_eq_add_one_of_ne_zero (Nat.ne_of_gt (Nat.zero_lt_of_lt hf))
  have hbf : breaks.length < fuel := by omega
  obtain ⟨blank, hline⟩ := readLines_line hl hb hm chomping start fuel pending margin
    (breaks ++ (spaces width ++ written))
  obtain ⟨widest, stop, m', hm', hmargin⟩ := readMargin_append hbs
    (Mark.nextLine_column (m.forward line) [c]) (Nat.le_refl width) hw
    (fun hlt => absurd hlt (Nat.lt_irrefl _)) hbf start ⟨[], 0, (m.forward line).nextLine [c]⟩
  obtain ⟨stop', m'', hm'', hmore⟩ := h start ⟨[c], blank⟩ ⟨breaks, widest, stop⟩ hm'
    (show text.length < fuel by omega)
  refine ⟨stop', m'', hm'', ?_⟩
  rw [hline, hmargin, ok_bind]
  simp only [hmore, ok_bind, List.nil_append, List.append_assoc, List.cons_append]

/-- The line break that a text lacks behind its last line. -/
def lineEnd (text : List Char) : List Char := if endsWith isBreak text then [] else ['\n']

theorem endsWith_append (hn : text ≠ []) (kind : Char → Bool) (before : List Char) :
    endsWith kind (before ++ text) = endsWith kind text := by
  rw [endsWith, endsWith, List.getLast?_append_of_ne_nil _ hn]

theorem lineEnd_append (hn : text ≠ []) (before : List Char) :
    lineEnd (before ++ text) = lineEnd text := by
  rw [lineEnd, lineEnd, endsWith_append hn]

theorem chompingOf_pair (before : List Char) (a b : Char) : chompingOf (before ++ [a, b]) =
    if !isBreak b then .strip else if isBreak a then .keep else .clip := by
  cases ha : isBreak a <;> cases hb : isBreak b <;>
    simp [chompingOf, endsWith, endsInBlankLine, ha, hb]

theorem endsWith_of_unbroken (h : Unbroken text) : endsWith isBreak text = false := by
  rw [endsWith]
  cases hl : text.getLast? with
  | none => rfl
  | some c => exact h c (List.mem_of_getLast? hl)

theorem endsWith_breaks (hc : isBreak c = true) (hb : ∀ x ∈ breaks, isBreak x = true)
    (before : List Char) : endsWith isBreak (before ++ c :: breaks) = true := by
  have hl : ∃ x, (before ++ c :: breaks).getLast? = some x ∧ x ∈ c :: breaks := by
    refine ⟨(c :: breaks).getLast (List.cons_ne_nil _ _), ?_, List.getLast_mem _⟩
    rw [List.getLast?_append_of_ne_nil _ (List.cons_ne_nil _ _), List.getLast?_eq_some_getLast]
  obtain ⟨x, hx, hm⟩ := hl
  have hall : ∀ y ∈ c :: breaks, isBreak y = true := List.forall_mem_cons.mpr ⟨hc, hb⟩
  rw [endsWith, hx]
  exact hall x hm

theorem chompingOf_strip (h : endsWith isBreak text = false) : chompingOf text = .strip := by
  rw [chompingOf, h]
  rfl

/-- How a text ends shows in what follows any of its characters that ends no line. -/
theorem chompingOf_append (hn : text ≠ []) (hh : ∀ c ∈ text.head?, isBreak c = false)
    (before : List Char) : chompingOf (before ++ text) = chompingOf text := by
  obtain ⟨text, b, rfl⟩ := text.eq_nil_or_concat'.resolve_left hn
  obtain rfl | ⟨text, a, rfl⟩ := text.eq_nil_or_concat'
  · have hs (before : List Char) : chompingOf (before ++ [b]) = .strip := by
      refine chompingOf_strip ?_
      rw [endsWith, List.getLast?_concat]
      exact hh b rfl
    exact (hs before).trans (hs []).symm
  · have he : text ++ [a] ++ [b] = text ++ [a, b] := by simp
    rw [he, ← List.append_assoc, chompingOf_pair, chompingOf_pair]

theorem chompingOf_break (hl : Unbroken line) (hn : line ≠ []) (hb : isBreak c = true) :
    chompingOf (line ++ [c]) = .clip := by
  obtain ⟨line, a, rfl⟩ := line.eq_nil_or_concat'.resolve_left hn
  have he : line ++ [a] ++ [c] = line ++ [a, c] := by simp
  rw [he, chompingOf_pair, hb, hl a (by simp)]
  rfl

theorem chompingOf_breaks (hb : ∀ x ∈ breaks, isBreak x = true) (hc : isBreak c = true)
    (hn : breaks ≠ []) (before : List Char) : chompingOf (before ++ c :: breaks) = .keep := by
  obtain ⟨breaks, b, rfl⟩ := breaks.eq_nil_or_concat'.resolve_left hn
  have hlast := hb b (by simp)
  obtain rfl | ⟨breaks, a, rfl⟩ := breaks.eq_nil_or_concat'
  · rw [List.nil_append, chompingOf_pair, hlast, hc]
    rfl
  · have he : before ++ c :: (breaks ++ [a] ++ [b]) = before ++ c :: breaks ++ [a, b] := by simp
    rw [he, chompingOf_pair, hlast, hb a (by simp)]
    rfl

/-- A last line that ends in no break is read without the one that is written behind it. -/
theorem readsLines_unbroken (hu : Unbroken line) (hn : line ≠ []) (hc : column < width)
    (hr : EndsGap rest) : ReadsLines (chompingOf line) width column rest
      (line ++ (lineEnd line ++ (spaces column ++ rest))) line := by
  have hl : 0 < (line ++ Chomping.strip.keeps ['\n'] []).length := by
    simpa [Chomping.keeps] using List.length_pos_iff.mpr hn
  have hlast : ReadsLines .strip width column rest (line ++ '\n' :: ([] ++ (spaces column ++ rest)))
      (line ++ Chomping.strip.keeps ['\n'] []) :=
    readsLines_last hu rfl nofun hc hr hl
  have he := endsWith_of_unbroken hu
  rw [chompingOf_strip he, lineEnd, he]
  simpa [Chomping.keeps] using hlast

/-- A last line keeps the breaks at its end. -/
theorem readsLines_broken (hu : Unbroken line) (hn : line ≠ []) (hk : isKeptBreak c = true)
    (hks : ∀ x ∈ breaks, isKeptBreak x = true) (hc : column < width) (hr : EndsGap rest) :
    ReadsLines (chompingOf (line ++ c :: breaks)) width column rest
      (line ++ c :: (breaks ++ (lineEnd (line ++ c :: breaks) ++ (spaces column ++ rest))))
      (line ++ c :: breaks) := by
  have hb := isBreak_of_isKeptBreak hk
  have hbs : ∀ x ∈ breaks, isBreak x = true := fun x hx => isBreak_of_isKeptBreak (hks x hx)
  have hkeeps : (chompingOf (line ++ c :: breaks)).keeps [c] breaks = c :: breaks := by
    by_cases hn' : breaks = []
    · rw [hn', chompingOf_break hu hn hb]
      rfl
    · rw [chompingOf_breaks hbs hb hn']
      rfl
  have hl : breaks.length <
      (line ++ (chompingOf (line ++ c :: breaks)).keeps [c] breaks).length := by
    rw [hkeeps, List.length_append, List.length_cons]
    omega
  have hlast := readsLines_last hu hk hks hc hr hl
  rw [hkeeps] at hlast
  rw [lineEnd, endsWith_breaks hb hbs]
  exact hlast

theorem readsLines_text (hn : text ≠ []) (hh : ∀ c ∈ text.head?, isBreak c = false)
    (hp : ∀ c ∈ text, isPlainText c = true) (hc : column < width) (hr : EndsGap rest) :
    ReadsLines (chompingOf text) width column rest
      (blockBody width false text ++ (lineEnd text ++ (spaces column ++ rest))) text := by
  -- the induction goes over the lines that hold text
  induction hl : text.length using Nat.strongRecOn generalizing text with
  | _ n ih =>
    subst hl
    obtain ⟨line, more, rfl, hline, hmore⟩ := exists_split (fun c => !isBreak c) text
    have hu : Unbroken line := fun c hx => by simpa using hline c hx
    have hln : line ≠ [] := by
      rintro rfl
      obtain ⟨c, more, rfl⟩ := List.exists_cons_of_ne_nil hn
      simpa [hh c rfl] using hmore c rfl
    rw [blockBody_line hu]
    cases more with
    | nil =>
      simpa [blockBody] using readsLines_unbroken hu hln hc hr
    | cons c more =>
      have hb : isBreak c = true := by simpa using hmore c rfl
      have hk (x : Char) (hx : isBreak x = true) (hm : x ∈ c :: more) : isKeptBreak x = true :=
        Bool.and_eq_true_iff.mpr ⟨hx, hp x (List.mem_append_right _ hm)⟩
      obtain ⟨breaks, text, rfl, hbs, ht⟩ := exists_split isBreak more
      have hkb : ∀ x ∈ breaks, isKeptBreak x = true := fun x hx => hk x (hbs x hx) (by simp [hx])
      have hkc := hk c hb List.mem_cons_self
      rw [blockBody_break hb, blockBody_breaks hbs]
      by_cases htn : text = []
      · subst htn
        simpa [blockBody] using readsLines_broken hu hln hkc hkb hc hr
      · have hi := ih text.length (by simp; omega) htn ht (fun x hx => hp x (by simp [hx])) rfl
        have hh : ∀ x ∈ (blockBody width false text ++
            (lineEnd text ++ (spaces column ++ rest))).head?, isBreak x = false := by
          rwa [head?_blockBody htn ht]
        have hnext := readsLines_next hu hkc hkb hh hi
        have he : line ++ c :: (breaks ++ text) = line ++ c :: breaks ++ text := by simp
        rw [blockBody_indented htn ht, he, chompingOf_append htn ht, lineEnd_append htn]
        simpa using hnext

/-- What is read behind the header of a block, whose indentation may be given. -/
def readContent (chomping : Chomping) (given : Option Nat) (around : Int) (start : Mark)
    (c : Cursor) : Except SyntaxError (List Char × Mark × Cursor) := do
  let (margin, c) ← readMargin given start (c.rest.length + 1) ⟨[], 0, c.mark⟩ c
  let width := given.getD (max margin.widest (max (around + 1).toNat 1))
  readLines false chomping width start (c.rest.length + 1) ⟨[], false⟩ margin c

theorem read_header (text rest : List Char) (around : Nat) (m : Mark) :
    Block.read false around ⟨'|' :: (blockHints text ++ '\n' :: rest), m⟩ =
      readContent (chompingOf text) ((indentationOf text).map (around + ·)) around m
        ⟨rest, ((m.forward ['|']).forward (blockHints text)).nextLine ['\n']⟩ := by
  have hs : (⟨'|' :: (blockHints text ++ '\n' :: rest), m⟩ : Cursor).skip 1 =
      ⟨blockHints text ++ '\n' :: rest, m.forward ['|']⟩ := rfl
  have he (m : Mark) : (⟨'\n' :: rest, m⟩ : Cursor).skipLineEnd = ⟨'\n' :: rest, m⟩ := by
    rw [Cursor.skipLineEnd, Cursor.skipWhile_of_head (by rintro c ⟨⟩; rfl)]
    rfl
  simp only [Block.read, hs, readHeader_hints, ok_bind, he]
  rfl

theorem length_le_blockBody (indent : Nat) (afterBreak : Bool) (text : List Char) :
    text.length ≤ (blockBody indent afterBreak text).length := by
  induction text generalizing afterBreak with
  | nil => exact Nat.zero_le _
  | cons c text ih =>
    rw [blockBody]
    split
    · exact Nat.succ_le_succ (ih true)
    · have hi := ih false
      simp only [List.length_append, List.length_cons]
      omega

/-- Behind the margin of a text. -/
theorem readLines_margin (hn : text ≠ []) (hp : ∀ c ∈ text, isPlainText c = true)
    (hh : ∀ c ∈ text.head?, isBreak c = false) (hc : column < width) (hr : EndsGap rest)
    (hm : m.column = width) (start : Mark) (margin : Margin) : ∃ stop m', m'.column = column ∧
      readLines false (chompingOf text) width start
        ((blockBody width false text ++ (lineEnd text ++ (spaces column ++ rest))).length + 1)
        ⟨[], false⟩ margin
        ⟨blockBody width false text ++ (lineEnd text ++ (spaces column ++ rest)), m⟩ =
      .ok (margin.breaks ++ text, stop, ⟨rest, m'⟩) := by
  have hl := length_le_blockBody width false text
  exact readsLines_text hn hh hp hc hr start ⟨[], false⟩ margin hm
    (by rw [List.length_append]; omega)

theorem readContent_indented (hn : text ≠ []) (hp : ∀ c ∈ text, isPlainText c = true)
    (hs : ∀ c ∈ text.head?, c ≠ ' ') (hh : ∀ c ∈ text.head?, isBreak c = false)
    (hc : column < around + 2) (hr : EndsGap rest) (hm : m.column = 0) (start : Mark) :
    ∃ stop m', m'.column = column ∧ readContent (chompingOf text) none around start
        ⟨blockBody (around + 2) true text ++ (lineEnd text ++ (spaces column ++ rest)), m⟩ =
      .ok (text, stop, ⟨rest, m'⟩) := by
  rw [blockBody_indented hn hh, List.append_assoc]
  have hhead := head?_blockBody hn hh (around + 2) (lineEnd text ++ (spaces column ++ rest))
  generalize hw : blockBody (around + 2) false text ++ (lineEnd text ++ (spaces column ++ rest)) =
    written at hhead
  have hcol : (m.forward (spaces (around + 2))).column = around + 2 := by
    rw [forward_spaces_column, hm, Nat.zero_add]
  have hmargin (fuel : Nat) (margin : Margin) : readMargin none start (fuel + 1) margin
      ⟨spaces (around + 2) ++ written, m⟩ = .ok ({ margin with
        widest := max margin.widest (around + 2) },
        ⟨written, m.forward (spaces (around + 2))⟩) := by
    have hws : ∀ c ∈ written.head?, c ≠ ' ' := by rwa [hhead]
    have hwt : ∀ c ∈ written.head?, c ≠ '\t' := by
      rw [hhead]
      rintro c hx rfl
      cases hp _ (List.mem_of_mem_head? hx)
    have hwb : ∀ c ∈ written.head?, isBreak c = false := by rwa [hhead]
    have ht : (spaces (around + 2) ++ written).takeWhile (· = ' ') = spaces (around + 2) :=
      takeWhile_append (by simp [spaces]) (by simpa using hws)
    have htab : (⟨written, m.forward (spaces (around + 2))⟩ : Cursor).startsWith '\t' = false := by
      rw [Cursor.startsWith, beq_eq_false_iff_ne]
      exact fun h => hwt '\t' h rfl
    simp only [readMargin, skipIndentation, ht, Cursor.skip_append, htab, Bool.and_false, hcol,
      Cursor.lineBreak_none hwb, Bool.false_eq_true, reduceIte]
  obtain ⟨stop, m', hm', h⟩ :=
    readLines_margin hn hp hh hc hr hcol start ⟨[], max 0 (around + 2), m⟩
  have hwidth : max (max 0 (around + 2)) (max ((around : Int) + 1).toNat 1) = around + 2 := by omega
  refine ⟨stop, m', hm', ?_⟩
  simp only [readContent, hmargin, ok_bind, Option.getD_none, hwidth]
  rw [hw] at h
  exact h

/-- A block of nothing but line breaks keeps them all. -/
theorem readContent_breaks (hn : text ≠ []) (hp : ∀ c ∈ text, isKeptBreak c = true)
    (hc : column < width) (hr : EndsGap rest) (hm : m.column = 0) (around : Int) (start : Mark) :
    ∃ stop m', m'.column = column ∧ readContent (chompingOf text) (some width) around start
        ⟨text ++ (lineEnd text ++ (spaces column ++ rest)), m⟩ = .ok (text, stop, ⟨rest, m'⟩) := by
  obtain ⟨c, breaks, rfl⟩ := List.exists_cons_of_ne_nil hn
  have hb : ∀ x ∈ c :: breaks, isBreak x = true := fun x hx => isBreak_of_isKeptBreak (hp x hx)
  obtain ⟨hbc, hbs⟩ := List.forall_mem_cons.mp hb
  have he : lineEnd (c :: breaks) = [] := by
    have hends := endsWith_breaks hbc hbs []
    rw [List.nil_append] at hends
    rw [lineEnd, if_pos hends]
  have hk : chompingOf (c :: breaks) = .keep := by
    by_cases hn : breaks = []
    · simp [hn, chompingOf, endsWith, endsInBlankLine, hbc]
    · exact chompingOf_breaks hbs hbc hn []
  rw [hk, he, List.nil_append]
  obtain ⟨widest, stop, m', hm', h⟩ := readMargin_append hp hm (Nat.le_of_lt hc)
    (fun x hx => (hr x hx).2) (fun _ x hx => (hr x hx).1)
    (show (c :: breaks).length < (c :: breaks ++ (spaces column ++ rest)).length + 1 by
      rw [List.length_append]; omega) start ⟨[], 0, m⟩
  refine ⟨stop, m', hm', ?_⟩
  simp only [readContent, h, ok_bind, Option.getD_some, List.nil_append]
  rw [readLines_end (Nat.ne_of_lt (hm' ▸ hc))]
  rfl

theorem readContent_given (hn : text ≠ []) (hp : ∀ c ∈ text, isPlainText c = true)
    (hc : column < width) (hr : EndsGap rest) (hm : m.column = 0) (around : Int) (start : Mark) :
    ∃ stop m', m'.column = column ∧ readContent (chompingOf text) (some width) around start
        ⟨blockBody width true text ++ (lineEnd text ++ (spaces column ++ rest)), m⟩ =
      .ok (text, stop, ⟨rest, m'⟩) := by
  obtain ⟨breaks, text, rfl, hbs, ht⟩ := exists_split isBreak text
  have hkb : ∀ x ∈ breaks, isKeptBreak x = true := fun x hx =>
    Bool.and_eq_true_iff.mpr ⟨hbs x hx, hp x (List.mem_append_left _ hx)⟩
  have hpt : ∀ x ∈ text, isPlainText x = true := fun x hx => hp x (List.mem_append_right _ hx)
  rw [blockBody_breaks hbs]
  by_cases htn : text = []
  · subst htn
    rw [List.append_nil] at hn ⊢
    rw [blockBody, List.append_nil]
    exact readContent_breaks hn hkb hc hr hm around start
  · rw [blockBody_indented htn ht, chompingOf_append htn ht, lineEnd_append htn]
    have hhead := head?_blockBody htn ht width (lineEnd text ++ (spaces column ++ rest))
    generalize hw : blockBody width false text ++ (lineEnd text ++ (spaces column ++ rest)) =
      written at hhead
    obtain ⟨widest, stop, m', hm', h⟩ := readMargin_append hkb hm (Nat.le_refl width)
      (by rwa [hhead]) (fun hlt => absurd hlt (Nat.lt_irrefl _))
      (show breaks.length < (breaks ++ (spaces width ++ written)).length + 1 by
        rw [List.length_append]; omega) start ⟨[], 0, m⟩
    obtain ⟨stop', m'', hm'', h'⟩ :=
      readLines_margin htn hpt ht hc hr hm' start ⟨[] ++ breaks, widest, stop⟩
    refine ⟨stop', m'', hm'', ?_⟩
    rw [hw] at h'
    have ha : breaks ++ (spaces width ++ written) = breaks ++ (spaces width ++
        blockBody width false text) ++ (lineEnd text ++ (spaces column ++ rest)) := by
      rw [← hw]
      simp
    rw [← ha]
    simp only [readContent, h, ok_bind, Option.getD_some]
    exact h'

/-- A literal block is read up to the indentation of what follows it. -/
theorem read_literal (hn : text ≠ []) (hp : ∀ c ∈ text, isPlainText c = true) (around : Nat)
    (hc : column < around + 2) (hr : EndsGap rest) (m : Mark) : ∃ stop m', m'.column = column ∧
      Block.read false around ⟨'|' :: (blockHints text ++ '\n' ::
        (blockBody (around + 2) true text ++ (lineEnd text ++ (spaces column ++ rest)))), m⟩ =
      .ok (text, stop, ⟨rest, m'⟩) := by
  rw [read_header]
  cases hh : text.head?.any (fun c => isSpace c || isBreak c) with
  | true =>
    rw [indentationOf, if_pos hh]
    exact readContent_given hn hp hc hr (Mark.nextLine_column _ _) around m
  | false =>
    have hs : ∀ c ∈ text.head?, isSpace c = false ∧ isBreak c = false := by
      intro c hc
      rw [Option.mem_def.mp hc] at hh
      exact Bool.or_eq_false_iff.mp hh
    rw [indentationOf, hh, if_neg Bool.false_ne_true]
    exact readContent_indented hn hp (fun c hx => of_decide_eq_false (hs c hx).1)
      (fun c hx => (hs c hx).2) hc hr (Mark.nextLine_column _ _) m

end ApiPresence.Yaml.Block

import ApiPresence.Proofs.Shared.Number
import ApiPresence.Proofs.Yaml.Token.Flow

namespace ApiPresence

open Json (Blank)
open Text (digit? digits?)
open Yaml (Unbroken IsSpace TokenKind isAllowed isBlank isBreak)
open Yaml.PlainScalar (EndsWord IsFlowChar isFlowIndicator)
open Yaml.Quoted (Body)
open Yaml.Scanner (Facing Within StartsToken IsFlowWord)

variable {letters text rest gap back front : List Char} {value : Tree} {s : Source} {depth : Nat}
  {c : Char} {kinds : List TokenKind}

/-- A character of ASCII that is neither a control nor a space. -/
def IsGraphic (c : Char) : Prop := 33 ≤ c.toNat ∧ c.toNat ≤ 126

theorem IsGraphic.ne {x : Char} (h : IsGraphic c) (hx : x.toNat < 33 ∨ 126 < x.toNat) : c ≠ x := by
  rintro rfl
  obtain ⟨hl, hu⟩ := h
  omega

theorem IsGraphic.solid (h : IsGraphic c) : isBlank c = false ∧ isBreak c = false := by
  have hn (x : Char) (hx : x.toNat < 33 ∨ 126 < x.toNat) : c ≠ x := h.ne hx
  constructor
  · simp [isBlank, hn ' ' (by decide), hn '\t' (by decide)]
  · simp [isBreak, hn '\n' (by decide), hn '\r' (by decide), hn '\u0085' (by decide),
      hn '\u2028' (by decide), hn '\u2029' (by decide)]

theorem IsGraphic.isAllowed (h : IsGraphic c) : isAllowed c = true := by
  obtain ⟨hl, hu⟩ := h
  simp only [Yaml.isAllowed, Bool.or_eq_true, Bool.and_eq_true, decide_eq_true_eq]
  omega

theorem isGraphic_of_isDigit (h : Text.isDigit c = true) : IsGraphic c := by
  simp only [Text.isDigit, Bool.and_eq_true, decide_eq_true_eq, Char.le_def,
    UInt32.le_iff_toNat_le] at h
  have hl : 48 ≤ c.toNat ∧ c.toNat ≤ 57 := h
  exact ⟨by omega, by omega⟩

theorem isGraphic_of_digit? (h : digit? 16 c = some n) : IsGraphic c := by
  by_cases hd : Text.isDigit c = true
  · exact isGraphic_of_isDigit hd
  · simp only [digit?, hd, Bool.false_eq_true, if_false] at h
    split at h
    · next hc => exact ⟨Nat.le_trans (by decide) hc.1, Nat.le_trans hc.2 (by decide)⟩
    · split at h
      · next hc => exact ⟨Nat.le_trans (by decide) hc.1, Nat.le_trans hc.2 (by decide)⟩
      · cases h

theorem isGraphic_of_digits? {digits : List Char} (h : digits? 16 digits = some n) :
    ∀ c ∈ digits, IsGraphic c := by
  have hf (value : Nat) (he : digits.foldlM (fun n c => (digit? 16 c).map (n * 16 + ·)) value =
      some n) : ∀ c ∈ digits, IsGraphic c := by
    clear h
    induction digits generalizing value with
    | nil => exact nofun
    | cons c digits ih =>
      rw [List.foldlM_cons, Option.bind_eq_bind, Option.bind_eq_some_iff] at he
      obtain ⟨v, hv, he⟩ := he
      obtain ⟨d, hd, -⟩ := Option.map_eq_some_iff.mp hv
      exact List.forall_mem_cons.mpr ⟨isGraphic_of_digit? hd, ih v he⟩
  cases digits with
  | nil => exact nofun
  | cons c digits => exact hf 0 h

theorem isGraphic_of_isNumberChar (h : Json.isNumberChar c = true) : IsGraphic c := by
  rw [Json.isNumberChar, Bool.or_eq_true] at h
  rcases h with h | h
  · exact isGraphic_of_isDigit h
  · simp only [List.mem_cons, List.not_mem_nil, or_false, decide_eq_true_eq] at h
    rcases h with rfl | rfl | rfl | rfl | rfl <;> exact ⟨by decide, by decide⟩

theorem escape?_of_mem {x : Char} (h : (x, c) ∈ escapes) :
    Yaml.Quoted.escape? x = some (.inl c) ∧ IsGraphic x := by
  simp only [escapes, List.mem_cons, Prod.mk.injEq, List.not_mem_nil, or_false] at h
  rcases h with ⟨rfl, rfl⟩ | ⟨rfl, rfl⟩ | ⟨rfl, rfl⟩ | ⟨rfl, rfl⟩ | ⟨rfl, rfl⟩ | ⟨rfl, rfl⟩ |
    ⟨rfl, rfl⟩ | ⟨rfl, rfl⟩ <;> exact ⟨rfl, by decide, by decide⟩

namespace Spells

theorem unbroken (h : Spells letters text) : Unbroken letters := by
  induction h with
  | nil => exact nofun
  | raw hc _ ih => exact List.forall_mem_cons.mpr ⟨hc.unbroken, ih⟩
  | escape hx _ ih =>
    have hb := (escape?_of_mem hx).2.solid.2
    exact List.forall_mem_cons.mpr ⟨rfl, List.forall_mem_cons.mpr ⟨hb, ih⟩⟩
  | digits _ hv _ ih =>
    have hb : Unbroken _ := fun c hc => (isGraphic_of_digits? hv c hc).solid.2
    exact List.forall_mem_cons.mpr ⟨rfl, List.forall_mem_cons.mpr ⟨rfl, hb.append ih⟩⟩

theorem isAllowed (h : Spells letters text) : ∀ c ∈ letters, Yaml.isAllowed c = true := by
  induction h with
  | nil => exact nofun
  | raw hc _ ih => exact List.forall_mem_cons.mpr ⟨hc.allowed, ih⟩
  | escape hx _ ih =>
    have hb := (escape?_of_mem hx).2.isAllowed
    exact List.forall_mem_cons.mpr ⟨rfl, List.forall_mem_cons.mpr ⟨hb, ih⟩⟩
  | digits _ hv _ ih =>
    have hb := fun c hc => (isGraphic_of_digits? hv c hc).isAllowed
    exact List.forall_mem_cons.mpr
      ⟨rfl, List.forall_mem_cons.mpr ⟨rfl, List.forall_mem_append.mpr ⟨hb, ih⟩⟩⟩

/-- What stands between double quotes reads the same in YAML, where spaces are read apart. -/
theorem body (h : Spells letters text) : Body false letters text := by
  induction h with
  | nil => exact .nil
  | @raw letters text c hc h ih =>
    cases hb : isBlank c with
    | true =>
      have hs : c = ' ' ∨ c = '\t' := by simpa [isBlank] using hb
      obtain rfl := hs.resolve_right (by
        rintro rfl
        exact absurd hc.solid (by decide))
      refine ih.space fun x hx => h.unbroken x ?_
      exact List.mem_of_mem_head? hx
    | false =>
      have hq : c ≠ Yaml.Quoted.quote false := hc.unquoted
      exact ih.cons (Yaml.Quoted.chunk_char ⟨hb, hc.unbroken⟩ hq fun _ => hc.unescaped)
  | escape hx _ ih =>
    obtain ⟨he, hg⟩ := escape?_of_mem hx
    exact ih.cons (Yaml.Quoted.chunk_letter he hg.solid.2)
  | @digits letters text digits c hd hv _ ih =>
    have he : Yaml.Quoted.escape? 'u' = some (.inr digits.length) := by rw [hd]; rfl
    have hb : Unbroken digits := fun c hc => (isGraphic_of_digits? hv c hc).solid.2
    exact ih.cons (Yaml.Quoted.chunk_digits he rfl hb hv)

end Spells

theorem isFlowChar_of_isGraphic (h : IsGraphic c) (hc : c ∉ [':', ',', '[', ']', '{', '}']) :
    IsFlowChar c := by
  simp only [List.mem_cons, List.not_mem_nil, or_false, not_or] at hc
  obtain ⟨hn, hi⟩ := hc
  exact ⟨h.solid.1, h.solid.2, hn, by simpa [isFlowIndicator] using hi⟩

theorem isFlowChar_of_isNumberChar (h : Json.isNumberChar c = true) : IsFlowChar c := by
  refine isFlowChar_of_isGraphic (isGraphic_of_isNumberChar h) fun hc => ?_
  simp only [List.mem_cons, List.not_mem_nil, or_false] at hc
  rcases hc with rfl | rfl | rfl | rfl | rfl | rfl <;> cases h

theorem isNumberChar_of_agreed {negative : Bool} {digits : List Char} {n : Number}
    (h : Json.readNumber negative digits = .ok (n, [])) :
    ∀ c ∈ sign negative ++ digits, Json.isNumberChar c = true := by
  refine List.forall_mem_append.mpr ⟨?_, Json.isNumberChar_of_readNumber h⟩
  cases negative with
  | true => exact List.forall_mem_singleton.mpr rfl
  | false => exact nofun

theorem Agreed.isGraphic (h : Agreed letters value) : ∀ c ∈ letters, IsGraphic c := by
  cases h with
  | number hj _ => exact fun c hc => isGraphic_of_isNumberChar (isNumberChar_of_agreed hj c hc)
  | null | true | false =>
    simp only [List.forall_mem_cons]
    repeat' constructor
    all_goals first | decide | nofun

theorem Agreed.isFlowWord (h : Agreed letters value) : IsFlowWord letters := by
  cases h with
  | null | true | false =>
    refine ⟨List.cons_ne_nil _ _, ?_, rfl, by decide⟩
    simp [IsFlowChar, isBlank, isBreak, isFlowIndicator]
  | @number negative digits n hj _ =>
    obtain ⟨c, more, rfl, hc⟩ := Json.isDigit_of_readNumber hj
    have hi : ∀ x ∈ sign negative ++ c :: more, IsFlowChar x := fun x hx =>
      isFlowChar_of_isNumberChar (isNumberChar_of_agreed hj x hx)
    cases negative with
    | true =>
      exact ⟨List.cons_ne_nil _ _, hi, Yaml.hasLeadingIndicator_minus hc more, by simp [sign]⟩
    | false =>
      refine ⟨List.cons_ne_nil _ _, hi, Yaml.hasLeadingIndicator_digit hc more, ?_⟩
      intro he
      cases he
      cases hc

theorem isSpace_of_blank (h : Blank gap) : IsSpace gap := by
  intro c hc
  have hb := h c hc
  simp only [Json.isBlank, Bool.or_eq_true, decide_eq_true_eq] at hb
  rcases hb with ((rfl | rfl) | rfl) | rfl <;> decide

theorem startsToken_of_isGraphic (h : IsGraphic c) (hs : c ≠ '#') (rest : List Char) :
    StartsToken (c :: rest) := by
  rintro x ⟨⟩
  exact ⟨h.solid.1, h.solid.2, hs, h.ne (by decide)⟩

theorem Agreed.startsToken (h : Agreed letters value) (rest : List Char) :
    StartsToken (letters ++ rest) := by
  obtain ⟨c, more, rfl⟩ := List.exists_cons_of_ne_nil h.isFlowWord.ne_nil
  refine startsToken_of_isGraphic (h.isGraphic c List.mem_cons_self) ?_ _
  rintro rfl
  exact (Yaml.hasLeadingIndicator_cons h.isFlowWord.leading).1 (by decide)

namespace Source

theorem IsShared.startsToken (h : s.IsShared depth) (rest : List Char) :
    StartsToken (s.text ++ rest) := by
  cases h with
  | word h => exact h.agreed.startsToken rest
  | string | emptyArray | array | emptyObject | object =>
    exact startsToken_of_isGraphic ⟨by decide, by decide⟩ (by decide) _

mutual

/-- The tokens of a text. -/
def tokens : Source → List TokenKind
  | .word letters _ => [.scalar letters .plain]
  | .string _ value => [.scalar value.toList .doubleQuoted]
  | .emptyArray _ => [.flowSequenceStart, .flowSequenceEnd]
  | .array ⟨_, value, _⟩ rest => .flowSequenceStart :: (value.tokens ++ itemTokens rest)
  | .emptyObject _ => [.flowMappingStart, .flowMappingEnd]
  | .object (key, ⟨_, value, _⟩) rest =>
    .flowMappingStart :: .key :: .scalar key.name.toList .doubleQuoted :: .value ::
      (value.tokens ++ memberTokens rest)

def itemTokens : List (Spaced Source) → List TokenKind
  | [] => [.flowSequenceEnd]
  | ⟨_, value, _⟩ :: rest => .flowEntry :: (value.tokens ++ itemTokens rest)

def memberTokens : List (Key × Spaced Source) → List TokenKind
  | [] => [.flowMappingEnd]
  | (key, ⟨_, value, _⟩) :: rest =>
    .flowEntry :: .key :: .scalar key.name.toList .doubleQuoted :: .value ::
      (value.tokens ++ memberTokens rest)

end

/-- A text is read to its tokens, and maybe some of what is behind it in front of the next token. -/
def Scans (s : Source) : Prop :=
  ∀ text depth allowed kinds back rest, IsSpace back → EndsWord (depth ≠ 0) rest →
    Facing text depth allowed (s.text ++ (back ++ rest)) kinds →
    ∃ allowed' gap, gap <:+ back ∧ Within text depth allowed' (gap ++ rest) (kinds ++ s.tokens)

theorem scans_word (h : Agreed letters value) : (word letters value).Scans := by
  intro text depth allowed kinds back rest hb hr hf
  obtain ⟨allowed', hw⟩ := hf.plain h.isFlowWord hb hr
  exact ⟨allowed', [], List.nil_suffix, hw⟩

theorem scans_string {name : String} (h : Spells letters name.toList) :
    (string letters name).Scans := by
  intro text depth allowed kinds back rest _ _ hf
  have ht :
      (string letters name).text ++ (back ++ rest) = '"' :: (letters ++ '"' :: (back ++ rest)) := by
    simp [Source.text]
  rw [ht] at hf
  exact ⟨false, back, List.suffix_refl _, hf.quoted h.body⟩

/-- A value between the marks of a collection. -/
theorem Scans.spaced (h : s.Scans) {depth' : Nat} (hs : s.IsShared depth') (hf : Blank front)
    (hb : Blank back) (hr : StartsToken rest) (he : EndsWord true rest) {allowed : Bool}
    (hw : Within text (depth + 1) allowed (front ++ (s.text ++ (back ++ rest))) kinds) :
    ∃ allowed', Facing text (depth + 1) allowed' rest (kinds ++ s.tokens) := by
  obtain ⟨allowed, hfacing, -⟩ := hw.facing (isSpace_of_blank hf) (.inl (Nat.succ_ne_zero _))
    (hs.startsToken _)
  obtain ⟨allowed, gap, hgap, hw⟩ := h text (depth + 1) allowed kinds back rest
    (isSpace_of_blank hb) he hfacing
  obtain ⟨allowed, hfacing, -⟩ := hw.facing (fun c hc => isSpace_of_blank hb c (hgap.subset hc))
    (.inl (Nat.succ_ne_zero _)) hr
  exact ⟨allowed, hfacing⟩

theorem startsToken_itemsText (items : List (Spaced Source)) (rest : List Char) :
    StartsToken (itemsText items ++ rest) := by
  cases items <;> exact startsToken_of_isGraphic ⟨by decide, by decide⟩ (by decide) _

theorem startsToken_membersText (members : List (Key × Spaced Source)) (rest : List Char) :
    StartsToken (membersText members ++ rest) := by
  obtain _ | ⟨⟨key, item⟩, members⟩ := members <;>
    exact startsToken_of_isGraphic ⟨by decide, by decide⟩ (by decide) _

theorem endsWord_itemsText (items : List (Spaced Source)) (rest : List Char) :
    EndsWord true (itemsText items ++ rest) := by
  cases items <;> (rintro c ⟨⟩; exact ⟨rfl, rfl⟩)

theorem endsWord_membersText (members : List (Key × Spaced Source)) (rest : List Char) :
    EndsWord true (membersText members ++ rest) := by
  obtain _ | ⟨⟨key, item⟩, members⟩ := members <;> (rintro c ⟨⟩; exact ⟨rfl, rfl⟩)

theorem scans_items {items : List (Spaced Source)} {depth' : Nat} {allowed : Bool}
    (hg : ∀ item ∈ items, Blank item.front ∧ Blank item.back)
    (hs : ∀ item ∈ items, item.value.IsShared depth') (hi : ∀ item ∈ items, item.value.Scans)
    (h : Facing text (depth + 1) allowed (itemsText items ++ rest) kinds) :
    Within text depth false rest (kinds ++ itemTokens items) := by
  induction items generalizing allowed kinds with
  | nil => exact h.closes rfl
  | cons item items ih =>
    obtain ⟨front, value, back⟩ := item
    obtain ⟨⟨hfront, hback⟩, hgs⟩ := List.forall_mem_cons.mp hg
    obtain ⟨hs, hss⟩ := List.forall_mem_cons.mp hs
    obtain ⟨hi, his⟩ := List.forall_mem_cons.mp hi
    simp only [itemsText, List.cons_append, List.append_assoc] at h
    obtain ⟨allowed', hf⟩ := hi.spaced hs hfront hback (startsToken_itemsText items rest)
      (endsWord_itemsText items rest) h.comma
    have hw := ih hgs hss his hf
    simpa [itemTokens] using hw

/-- A member behind the mark in front of it, up to the mark behind it. -/
theorem Scans.member {key : Key} (h : s.Scans) {depth' : Nat} (hk : key.IsShared)
    (hs : s.IsShared depth') (hf : Blank front) (hb : Blank back) (hr : StartsToken rest)
    (he : EndsWord true rest)
    (hw : Within text (depth + 1) true
      (key.front ++ (key.quoted ++ ':' :: (front ++ (s.text ++ (back ++ rest))))) kinds) :
    ∃ allowed', Facing text (depth + 1) allowed' rest
      (kinds ++ [.key, .scalar key.name.toList .doubleQuoted, .value] ++ s.tokens) := by
  obtain ⟨allowed, hfacing, ha⟩ := hw.facing (isSpace_of_blank hk.front)
    (.inl (Nat.succ_ne_zero _)) (startsToken_of_isGraphic ⟨by decide, by decide⟩ (by decide) _)
  obtain rfl := ha (Nat.succ_ne_zero _)
  simp only [Key.quoted, List.cons_append, List.append_assoc] at hfacing
  exact h.spaced hs hf hb hr he (hfacing.quotedKey (Nat.succ_ne_zero _) hk.spells.body
    hk.spells.unbroken hk.back hk.short)

theorem scans_members {members : List (Key × Spaced Source)} {depth' : Nat} {allowed : Bool}
    (hk : ∀ member ∈ members, member.1.IsShared)
    (hg : ∀ member ∈ members, Blank member.2.front ∧ Blank member.2.back)
    (hs : ∀ member ∈ members, member.2.value.IsShared depth')
    (hm : ∀ member ∈ members, member.2.value.Scans)
    (h : Facing text (depth + 1) allowed (membersText members ++ rest) kinds) :
    Within text depth false rest (kinds ++ memberTokens members) := by
  induction members generalizing allowed kinds with
  | nil => exact h.closes rfl
  | cons member members ih =>
    obtain ⟨key, front, value, back⟩ := member
    obtain ⟨hk, hks⟩ := List.forall_mem_cons.mp hk
    obtain ⟨⟨hfront, hback⟩, hgs⟩ := List.forall_mem_cons.mp hg
    obtain ⟨hs, hss⟩ := List.forall_mem_cons.mp hs
    obtain ⟨hm, hms⟩ := List.forall_mem_cons.mp hm
    simp only [membersText, List.cons_append, List.append_assoc] at h
    obtain ⟨allowed', hf⟩ := hm.member hk hs hfront hback (startsToken_membersText members rest)
      (endsWord_membersText members rest) h.comma
    have hw := ih hks hgs hss hms hf
    simpa [memberTokens] using hw

theorem IsShared.scans (h : s.IsShared depth) : s.Scans := by
  induction h with
  | word h => exact scans_word h.agreed
  | string h => exact scans_string h
  | emptyArray hg =>
    intro text depth allowed kinds back rest _ _ hf
    simp only [Source.text, List.cons_append, List.append_assoc] at hf
    obtain ⟨allowed, hf, -⟩ := (hf.opens rfl).facing (isSpace_of_blank hg)
      (.inl (Nat.succ_ne_zero _)) (startsToken_of_isGraphic ⟨by decide, by decide⟩ (by decide) _)
    exact ⟨false, back, List.suffix_refl _, by simpa [tokens] using hf.closes rfl⟩
  | @array first items depth' hg h ih =>
    intro text depth allowed kinds back rest _ _ hf
    obtain ⟨front, value, gap⟩ := first
    obtain ⟨⟨hfront, hgap⟩, hgs⟩ := List.forall_mem_cons.mp hg
    obtain ⟨hv, hvs⟩ := List.forall_mem_cons.mp h
    obtain ⟨hi, his⟩ := List.forall_mem_cons.mp ih
    simp only [Source.text, List.cons_append, List.append_assoc] at hf
    obtain ⟨allowed, hf⟩ := hi.spaced hv hfront hgap (startsToken_itemsText items _)
      (endsWord_itemsText items _) (hf.opens rfl)
    have hw := scans_items hgs hvs his hf
    exact ⟨false, back, List.suffix_refl _, by simpa [tokens] using hw⟩
  | emptyObject hg =>
    intro text depth allowed kinds back rest _ _ hf
    simp only [Source.text, List.cons_append, List.append_assoc] at hf
    obtain ⟨allowed, hf, -⟩ := (hf.opens rfl).facing (isSpace_of_blank hg)
      (.inl (Nat.succ_ne_zero _)) (startsToken_of_isGraphic ⟨by decide, by decide⟩ (by decide) _)
    exact ⟨false, back, List.suffix_refl _, by simpa [tokens] using hf.closes rfl⟩
  | @object first members depth' hk _ hg h ih =>
    intro text depth allowed kinds back rest _ _ hf
    obtain ⟨key, front, value, gap⟩ := first
    obtain ⟨hk, hks⟩ := List.forall_mem_cons.mp hk
    obtain ⟨⟨hfront, hgap⟩, hgs⟩ := List.forall_mem_cons.mp hg
    obtain ⟨hv, hvs⟩ := List.forall_mem_cons.mp h
    obtain ⟨hm, hms⟩ := List.forall_mem_cons.mp ih
    simp only [Source.text, List.cons_append, List.append_assoc] at hf
    obtain ⟨allowed, hf⟩ := hm.member hk hv hfront hgap (startsToken_membersText members _)
      (endsWord_membersText members _) (hf.opens rfl)
    have hw := scans_members hks hgs hvs hms hf
    exact ⟨false, back, List.suffix_refl _, by simpa [tokens] using hw⟩

theorem isAllowed_of_blank (h : Blank gap) : ∀ c ∈ gap, isAllowed c = true := by
  intro c hc
  have hb := h c hc
  simp only [Json.isBlank, Bool.or_eq_true, decide_eq_true_eq] at hb
  rcases hb with ((rfl | rfl) | rfl) | rfl <;> rfl

theorem isAllowed_quoted {key : Key} (hk : key.IsShared) :
    ∀ c ∈ key.front ++ key.quoted, isAllowed c = true := by
  simp only [Key.quoted, List.forall_mem_append, List.forall_mem_cons]
  exact ⟨isAllowed_of_blank hk.front, rfl, hk.spells.isAllowed, rfl,
    isAllowed_of_blank hk.blank_back⟩

theorem isAllowed_itemsText {items : List (Spaced Source)}
    (hg : ∀ item ∈ items, Blank item.front ∧ Blank item.back)
    (hi : ∀ item ∈ items, ∀ c ∈ item.value.text, isAllowed c = true) :
    ∀ c ∈ itemsText items, isAllowed c = true := by
  induction items with
  | nil => exact List.forall_mem_singleton.mpr rfl
  | cons item items ih =>
    obtain ⟨front, value, back⟩ := item
    obtain ⟨⟨hf, hb⟩, hgs⟩ := List.forall_mem_cons.mp hg
    obtain ⟨hi, his⟩ := List.forall_mem_cons.mp hi
    simp only [itemsText, List.forall_mem_cons, List.forall_mem_append]
    exact ⟨rfl, isAllowed_of_blank hf, hi, isAllowed_of_blank hb, ih hgs his⟩

theorem isAllowed_membersText {members : List (Key × Spaced Source)}
    (hk : ∀ member ∈ members, member.1.IsShared)
    (hg : ∀ member ∈ members, Blank member.2.front ∧ Blank member.2.back)
    (hm : ∀ member ∈ members, ∀ c ∈ member.2.value.text, isAllowed c = true) :
    ∀ c ∈ membersText members, isAllowed c = true := by
  induction members with
  | nil => exact List.forall_mem_singleton.mpr rfl
  | cons member members ih =>
    obtain ⟨key, front, value, back⟩ := member
    obtain ⟨hk, hks⟩ := List.forall_mem_cons.mp hk
    obtain ⟨⟨hf, hb⟩, hgs⟩ := List.forall_mem_cons.mp hg
    obtain ⟨hm, hms⟩ := List.forall_mem_cons.mp hm
    obtain ⟨hkf, hkq⟩ := List.forall_mem_append.mp (isAllowed_quoted hk)
    simp only [membersText, List.forall_mem_cons, List.forall_mem_append]
    exact ⟨rfl, hkf, hkq, rfl, isAllowed_of_blank hf, hm, isAllowed_of_blank hb, ih hks hgs hms⟩

theorem IsShared.isAllowed (h : s.IsShared depth) : ∀ c ∈ s.text, isAllowed c = true := by
  induction h with
  | word h => exact fun c hc => (h.agreed.isGraphic c hc).isAllowed
  | string h =>
    simp only [Source.text, List.forall_mem_cons, List.forall_mem_append]
    exact ⟨rfl, h.isAllowed, rfl, nofun⟩
  | emptyArray hg | emptyObject hg =>
    simp only [Source.text, List.forall_mem_cons, List.forall_mem_append]
    exact ⟨rfl, isAllowed_of_blank hg, rfl, nofun⟩
  | @array first items depth' hg h ih =>
    obtain ⟨front, value, back⟩ := first
    obtain ⟨⟨hf, hb⟩, hgs⟩ := List.forall_mem_cons.mp hg
    obtain ⟨hi, his⟩ := List.forall_mem_cons.mp ih
    simp only [Source.text, List.forall_mem_cons, List.forall_mem_append]
    exact ⟨rfl, isAllowed_of_blank hf, hi, isAllowed_of_blank hb, isAllowed_itemsText hgs his⟩
  | @object first members depth' hk _ hg h ih =>
    obtain ⟨key, front, value, back⟩ := first
    obtain ⟨hk, hks⟩ := List.forall_mem_cons.mp hk
    obtain ⟨⟨hf, hb⟩, hgs⟩ := List.forall_mem_cons.mp hg
    obtain ⟨hm, hms⟩ := List.forall_mem_cons.mp ih
    obtain ⟨hkf, hkq⟩ := List.forall_mem_append.mp (isAllowed_quoted hk)
    simp only [Source.text, List.forall_mem_cons, List.forall_mem_append]
    exact ⟨rfl, hkf, hkq, rfl, isAllowed_of_blank hf, hm, isAllowed_of_blank hb,
      isAllowed_membersText hks hgs hms⟩

end Source

/-- The tokens of a text are those of its value. -/
theorem Spaced.IsShared.tokens {document : Spaced Source} (h : document.IsShared depth) :
    ∃ tokens, Yaml.TokenStream.ofText document.text = ⟨tokens, none⟩ ∧
      tokens.map (·.kind) = document.value.tokens ++ [.streamEnd] := by
  have hf := blank_of_edge h.front
  have hb := blank_of_edge h.back
  have htf : '\t' ∉ document.front := fun hc => absurd (h.front _ hc) (by decide)
  have htb : '\t' ∉ document.back := fun hc => absurd (h.back _ hc) (by decide)
  have ha : ∀ c ∈ document.text, isAllowed c = true := by
    simp only [Spaced.text, List.forall_mem_append]
    exact ⟨Source.isAllowed_of_blank hf, h.value.isAllowed, Source.isAllowed_of_blank hb⟩
  obtain ⟨allowed, hfacing, -⟩ := (Within.start document.text).facing (isSpace_of_blank hf)
    (.inr htf) (h.value.startsToken document.back)
  rw [← List.append_nil document.back] at hfacing
  obtain ⟨allowed, gap, hgap, hw⟩ := h.value.scans document.text 0 allowed [] document.back []
    (isSpace_of_blank hb) nofun hfacing
  rw [List.append_nil] at hw
  exact hw.ofText (fun c hc => isSpace_of_blank hb c (hgap.subset hc))
    (fun ht => htb (hgap.subset ht)) ha

end ApiPresence

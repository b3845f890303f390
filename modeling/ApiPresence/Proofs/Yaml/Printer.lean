import ApiPresence.Proofs.Yaml.Style
import ApiPresence.Proofs.Yaml.Token.Node
import Mathlib.Data.String.Basic

namespace ApiPresence.Yaml

open Scanner

/-- A scalar that is no float. -/
inductive Leaf : Tree → Prop
  | null : Leaf .null
  | bool : Leaf (.bool value)
  | whole : Leaf (.number (.whole value inRange))
  | string : Leaf (.string s)

/-- A key that stands without quotes and in front of its colon, and that asks for no merging. -/
structure IsPlainKey (key : String) : Prop where
  style : styleOf key.toList = .plain
  simple : isSimpleKey key = true
  own : key ≠ "<<"

/-- No floats and no empty collections, keys that are plain and differ, and nesting to a depth. -/
inductive Printable : (depth : Nat) → Tree → Prop
  | leaf (h : Leaf t) : Printable depth t
  | array (hn : items ≠ []) (h : ∀ item ∈ items, Printable depth item) :
    Printable (depth + 1) (.array items)
  | object (hn : members ≠ []) (hk : ∀ member ∈ members, IsPlainKey member.1)
    (hd : (members.map Prod.fst).Nodup) (h : ∀ member ∈ members, Printable depth member.2) :
    Printable (depth + 1) (.object members)

/-- The text of a scalar. -/
def scalarText : Tree → List Char
  | .null => ['n', 'u', 'l', 'l']
  | .bool true => ['t', 'r', 'u', 'e']
  | .bool false => ['f', 'a', 'l', 's', 'e']
  | .number n => numberText n
  | .string s => s.toList
  | .array _ | .object _ => []

def Style.scalarStyle : Style → ScalarStyle
  | .plain => .plain
  | .singleQuoted => .singleQuoted
  | .doubleQuoted => .doubleQuoted
  | .literal => .literal

def scalarStyle : Tree → ScalarStyle
  | .string s => (styleOf s.toList).scalarStyle
  | _ => .plain

mutual

/-- The tokens of a tree; a sequence that is not indented opens no block. -/
def nodeTokens (indentless : Bool) : Tree → List TokenKind
  | .array items =>
    if indentless then itemTokens items
    else .blockSequenceStart :: (itemTokens items ++ [.blockEnd])
  | .object members => .blockMappingStart :: (memberTokens members ++ [.blockEnd])
  | scalar => [.scalar (scalarText scalar) (scalarStyle scalar)]

def itemTokens : List Tree → List TokenKind
  | [] => []
  | item :: rest => .blockEntry :: (nodeTokens false item ++ itemTokens rest)

def memberTokens : List (String × Tree) → List TokenKind
  | [] => []
  | (key, value) :: rest =>
    .key :: .scalar key.toList .plain :: .value :: (nodeTokens true value ++ memberTokens rest)

end

theorem Leaf.tokens_eq (h : Leaf t) (indentless : Bool) :
    nodeTokens indentless t = [.scalar (scalarText t) (scalarStyle t)] := by
  cases h <;> rfl

theorem IsBare.startsToken (h : IsBare text) : StartsToken (text ++ rest) := by
  obtain ⟨c, text, rfl⟩ := List.exists_cons_of_ne_nil h.words.ne_nil
  obtain ⟨hl, -⟩ := hasLeadingIndicator_cons h.leading
  have hg : EndsGap (c :: text ++ rest) := h.words.endsGap
  rintro d ⟨⟩
  refine ⟨(hg c rfl).1, (hg c rfl).2, ?_, ?_⟩
  · rintro rfl
    exact hl (by decide)
  · rintro rfl
    cases h.allowed _ List.mem_cons_self

/-- Lines that do not go on with what is indented deeper than a level. -/
def Outdented (level : Nat) (lines : List Char) : Prop :=
  ∃ n rest, lines = spaces n ++ rest ∧ StartsToken rest ∧ n ≤ level

theorem Outdented.mono (h : Outdented level lines) (hl : level ≤ deeper) :
    Outdented deeper lines := by
  obtain ⟨n, rest, he, hs, hn⟩ := h
  exact ⟨n, rest, he, hs, Nat.le_trans hn hl⟩

variable {text rest word : List Char} {levels : List Nat} {level column : Nat} {allowed : Bool}
  {kinds : List TokenKind}

theorem between_bare
    (hr : Ready text (level :: levels) allowed column (word ++ ['\n'] ++ rest) kinds)
    (hw : IsBare word) (ho : Outdented level rest) (hc : level < column) :
    Between text (level :: levels) rest (kinds ++ [.scalar word .plain]) := by
  obtain ⟨n, rest, rfl, hs, hn⟩ := ho
  rw [List.append_assoc] at hr
  exact hr.plain hw hs (Int.ofNat_le.mpr hn) (Int.ofNat_lt.mpr hc)

theorem between_string
    (hr : Ready text (level :: levels) allowed column (stringLines (level + 2) s ++ rest) kinds)
    (ho : Outdented level rest) (hc : level < column) :
    Between text (level :: levels) rest
      (kinds ++ [.scalar s.toList (styleOf s.toList).scalarStyle]) := by
  cases hs : styleOf s.toList with
  | plain =>
    simp only [stringLines, hs] at hr
    exact between_bare hr (isBare_of_styleOf hs) ho hc
  | singleQuoted =>
    simp only [stringLines, hs] at hr
    obtain ⟨n, rest, rfl, hstart, hn⟩ := ho
    have hb := (Quoted.body_singleQuoted (isKept_of_styleOf hs) (level + 1)).1
    rw [List.append_assoc, List.cons_append] at hr
    exact hr.quoted hb hstart (Int.ofNat_lt.mpr hc)
  | doubleQuoted =>
    simp only [stringLines, hs] at hr
    obtain ⟨n, rest, rfl, hstart, hn⟩ := ho
    rw [List.append_assoc, List.cons_append] at hr
    exact hr.quoted (Quoted.body_escaped s.toList) hstart (Int.ofNat_lt.mpr hc)
  | literal =>
    simp only [stringLines, hs] at hr
    obtain ⟨n, rest, rfl, hstart, hn⟩ := ho
    obtain ⟨hne, hp⟩ := literal_of_styleOf hs
    simp only [List.append_assoc, List.cons_append] at hr
    exact hr.literal hne hp hstart hn

/-- A scalar that is no string is a word. -/
theorem Leaf.bare_or_string (h : Leaf t) :
    (IsBare (scalarText t) ∧ scalarStyle t = .plain ∧
      ∀ indent, nodeLines indent t = scalarText t ++ ['\n']) ∨ ∃ s, t = .string s := by
  have hw (word : List Char) (hp : isPlainAllowed word = true) (hn : word ≠ []) : IsBare word :=
    isBare_of_isPlainAllowed hp hn
  cases h with
  | null => exact .inl ⟨hw _ (by decide) (by decide), rfl, fun _ => by rw [nodeLines]; rfl⟩
  | @bool value =>
    cases value
    · exact .inl ⟨hw _ (by decide) (by decide), rfl, fun _ => by rw [nodeLines]; rfl⟩
    · exact .inl ⟨hw _ (by decide) (by decide), rfl, fun _ => by rw [nodeLines]; rfl⟩
  | whole => exact .inl ⟨isBare_wholeOf _, rfl, fun _ => by rw [nodeLines]; rfl⟩
  | string => exact .inr ⟨_, rfl⟩

theorem startsToken_stringLines (s : String) (indent : Nat) :
    StartsToken (stringLines indent s ++ rest) := by
  cases hs : styleOf s.toList <;> simp only [stringLines, hs]
  case plain =>
    rw [List.append_assoc]
    exact (isBare_of_styleOf hs).startsToken
  all_goals
    rintro c ⟨⟩
    decide

theorem Leaf.startsToken (h : Leaf t) (indent : Nat) :
    StartsToken (nodeLines indent t ++ rest) := by
  obtain ⟨hw, -, hl⟩ | ⟨s, rfl⟩ := h.bare_or_string
  · rw [hl, List.append_assoc]
    exact hw.startsToken
  · rw [nodeLines]
    exact startsToken_stringLines s indent

theorem Leaf.between (h : Leaf t)
    (hr : Ready text (level :: levels) allowed column (nodeLines (level + 2) t ++ rest) kinds)
    (ho : Outdented level rest) (hc : level < column) (indentless : Bool) :
    Between text (level :: levels) rest (kinds ++ nodeTokens indentless t) := by
  rw [h.tokens_eq]
  obtain ⟨hw, hs, hl⟩ | ⟨s, rfl⟩ := h.bare_or_string
  · rw [hl] at hr
    exact hs ▸ between_bare hr hw ho hc
  · rw [nodeLines] at hr
    exact between_string hr ho hc

/--
What a tree writes is read as its tokens, on its own behind an indicator and as the value of a key,
which may be the first of its mapping.
-/
structure Scans (t : Tree) : Prop where
  startsToken (indent : Nat) (rest : List Char) : StartsToken (nodeLines indent t ++ rest)
  node {text rest : List Char} {levels : List Nat} {level : Nat} {kinds : List TokenKind}
    (hr : Ready text (level :: levels) true (level + 2) (nodeLines (level + 2) t ++ rest) kinds)
    (ho : Outdented level rest) :
    Between text (level :: levels) rest (kinds ++ nodeTokens false t)
  entry {text rest : List Char} {levels around : List Nat} {level : Nat}
    {kinds opening : List TokenKind} {key : String} (hk : IsPlainKey key)
    (hr : Ready text around true level (entryLines level key t ++ rest) kinds)
    (hl : Opens .blockMappingStart around level (level :: levels) opening)
    (ho : Outdented level rest) :
    Between text (level :: levels) rest
      (kinds ++ opening ++ .key :: .scalar key.toList .plain :: .value :: nodeTokens true t)

theorem IsPlainKey.octets_le (hk : IsPlainKey key) : Text.octets key.toList ≤ 1024 := by
  have hs := hk.simple
  simp only [isSimpleKey, Bool.and_eq_true, decide_eq_true_eq] at hs
  have hl (cs : List Char) : Text.octets cs = String.utf8Len cs := by
    induction cs with
    | nil => rfl
    | cons c cs ih =>
      have hc : Text.octets (c :: cs) = Text.octets [c] + Text.octets cs := octets_append [c] cs
      rw [hc, ih, Text.octets]
      simp [Nat.add_comm]
  rw [hl, String.utf8Len_toList]
  omega

theorem IsPlainKey.simpleKey_eq (hk : IsPlainKey key) : simpleKey key = key.toList := by
  simp only [simpleKey, stringLines, hk.style, List.dropLast_concat]

theorem IsPlainKey.isBare (hk : IsPlainKey key) : IsBare key.toList := isBare_of_styleOf hk.style

/-- A key in front of its colon. -/
theorem behind_key {around : List Nat} {opening : List TokenKind} {key : String}
    (hk : IsPlainKey key)
    (hr : Ready text around true level (simpleKey key ++ ':' :: rest) kinds)
    (hs : atSpace rest = true)
    (hl : Opens .blockMappingStart around level levels opening) (breaks : Nat) :
    Behind text levels false (level + key.toList.length + 1) rest breaks
      (kinds ++ opening ++ [.key, .scalar key.toList .plain, .value]) := by
  rw [hk.simpleKey_eq] at hr
  exact hr.key hk.isBare hk.octets_le hs hl breaks

theorem Leaf.entryLines_eq (h : Leaf t) (hk : IsPlainKey key) (indent : Nat) :
    entryLines indent key t = simpleKey key ++ ':' :: ' ' :: nodeLines (indent + 2) t := by
  cases h <;> simp [entryLines, hk.simple]

theorem Leaf.scans (h : Leaf t) : Scans t where
  startsToken indent rest := h.startsToken indent
  node hr ho := h.between hr ho (by omega) false
  entry {text rest levels around level kinds opening key} hk hr hl ho := by
    rw [h.entryLines_eq hk, List.append_assoc] at hr
    have hb := behind_key hk hr rfl hl 0
    have ha := Behind.ahead (n := 1) hb (h.startsToken _)
    have hc : top (level :: levels) ≤ ((level + key.toList.length + 1 + 1 : Nat) : Int) := by
      show (level : Int) ≤ _
      omega
    have hn := h.between (ha.ready hc) ho (by omega) true
    simpa using hn

/-- The item behind its mark. -/
theorem Scans.behind_item (h : Scans t)
    (hb : Behind text (level :: levels) true (level + 1)
      (' ' :: (nodeLines (level + 2) t ++ rest)) 0 kinds) (ho : Outdented level rest) :
    Between text (level :: levels) rest (kinds ++ nodeTokens false t) := by
  have ha := Behind.ahead (n := 1) hb (h.startsToken _ _)
  refine h.node (ha.ready ?_) ho
  show (level : Int) ≤ _
  omega

theorem outdented_itemLines (level : Nat) (items : List Tree) (ho : Outdented level rest) :
    Outdented level (itemLines level items ++ rest) := by
  cases items with
  | nil => rwa [itemLines, List.nil_append]
  | cons item items =>
    refine ⟨level, _, by rw [itemLines, List.append_assoc, List.append_assoc], ?_, Nat.le_refl _⟩
    rintro c ⟨⟩
    decide

theorem between_items (hs : ∀ item ∈ items, Scans item)
    (hb : Between text (level :: levels) (itemLines level items ++ rest) kinds)
    (ho : Outdented level rest) :
    Between text (level :: levels) rest (kinds ++ itemTokens items) := by
  induction items generalizing kinds with
  | nil =>
    rw [itemTokens, List.append_nil]
    rwa [itemLines, List.nil_append] at hb
  | cons item items ih =>
    obtain ⟨hi, his⟩ := List.forall_mem_cons.mp hs
    simp only [itemLines, List.append_assoc, List.cons_append] at hb
    have hr := hb.ready (by rintro c ⟨⟩; decide) rfl
    have hn := hi.behind_item (hr.item (.level rfl)) (outdented_itemLines level items ho)
    have hm := ih his hn
    simpa [itemTokens] using hm

/-- Whatever its value, an entry starts with its key. -/
theorem startsToken_entryLines (hk : IsPlainKey key) (indent : Nat) (value : Tree) :
    StartsToken (entryLines indent key value ++ rest) := by
  have hs : ∃ behind, entryLines indent key value = key.toList ++ behind := by
    rw [← hk.simpleKey_eq]
    cases value with
    | array items => cases items <;> simp [entryLines, hk.simple]
    | object members => obtain _ | ⟨⟨k, v⟩, members⟩ := members <;> simp [entryLines, hk.simple]
    | _ => simp [entryLines, hk.simple]
  obtain ⟨behind, hb⟩ := hs
  rw [hb, List.append_assoc]
  exact hk.isBare.startsToken

theorem outdented_memberLines (level : Nat) (hk : ∀ member ∈ members, IsPlainKey member.1)
    (ho : Outdented level rest) : Outdented level (memberLines level members ++ rest) := by
  cases members with
  | nil => rwa [memberLines, List.nil_append]
  | cons member members =>
    obtain ⟨key, value⟩ := member
    refine ⟨level, _, by rw [memberLines, List.append_assoc, List.append_assoc], ?_, Nat.le_refl _⟩
    exact startsToken_entryLines (hk _ List.mem_cons_self) level value

theorem between_members (hk : ∀ member ∈ members, IsPlainKey member.1)
    (hs : ∀ member ∈ members, Scans member.2)
    (hb : Between text (level :: levels) (memberLines level members ++ rest) kinds)
    (ho : Outdented level rest) :
    Between text (level :: levels) rest (kinds ++ memberTokens members) := by
  induction members generalizing kinds with
  | nil =>
    rw [memberTokens, List.append_nil]
    rwa [memberLines, List.nil_append] at hb
  | cons member members ih =>
    obtain ⟨key, value⟩ := member
    obtain ⟨hkey, hks⟩ := List.forall_mem_cons.mp hk
    obtain ⟨hv, hvs⟩ := List.forall_mem_cons.mp hs
    simp only [memberLines, List.append_assoc] at hb
    have hr := hb.ready (startsToken_entryLines hkey level value) rfl
    have he := hv.entry hkey hr (.level rfl) (outdented_memberLines level hks ho)
    have hm := ih hks hvs he
    simpa [memberTokens] using hm

/-- A sequence that is indented deeper than what is around it. -/
theorem between_array {around : List Nat} (hs : ∀ item ∈ items, Scans item) (hn : items ≠ [])
    (hr : Ready text around true level (nodeLines level (.array items) ++ rest) kinds)
    (hd : top around < level) (ho : Outdented level rest) :
    Between text around rest (kinds ++ nodeTokens false (.array items)) := by
  obtain ⟨item, items, rfl⟩ := List.exists_cons_of_ne_nil hn
  obtain ⟨hi, his⟩ := List.forall_mem_cons.mp hs
  simp only [nodeLines, List.cons_append, List.append_assoc] at hr
  have hf := hi.behind_item (hr.item (.deeper hd)) (outdented_itemLines level items ho)
  have hm := between_items his hf ho
  simpa [nodeTokens, itemTokens] using hm.close hd

/-- A mapping that is indented deeper than what is around it. -/
theorem between_object {around : List Nat} (hk : ∀ member ∈ members, IsPlainKey member.1)
    (hs : ∀ member ∈ members, Scans member.2) (hn : members ≠ [])
    (hr : Ready text around true level (nodeLines level (.object members) ++ rest) kinds)
    (hd : top around < level) (ho : Outdented level rest) :
    Between text around rest (kinds ++ nodeTokens false (.object members)) := by
  obtain ⟨⟨key, value⟩, members, rfl⟩ := List.exists_cons_of_ne_nil hn
  obtain ⟨hkey, hks⟩ := List.forall_mem_cons.mp hk
  obtain ⟨hv, hvs⟩ := List.forall_mem_cons.mp hs
  simp only [nodeLines, List.append_assoc] at hr
  have hf := hv.entry hkey hr (.deeper hd) (outdented_memberLines level hks ho)
  have hm := between_members hks hvs hf ho
  simpa [nodeTokens, memberTokens] using hm.close hd

theorem top_lt_indented (level : Nat) (levels : List Nat) :
    top (level :: levels) < (level + 2 : Nat) :=
  Int.ofNat_lt.mpr (Nat.lt_add_of_pos_right (by decide))

theorem scans_array (hs : ∀ item ∈ items, Scans item) (hn : items ≠ []) :
    Scans (.array items) where
  startsToken indent rest := by
    obtain ⟨item, items, rfl⟩ := List.exists_cons_of_ne_nil hn
    rw [nodeLines]
    rintro c ⟨⟩
    decide
  node hr ho := between_array hs hn hr (top_lt_indented _ _) (ho.mono (Nat.le_add_right _ 2))
  entry {text rest levels around level kinds opening key} hk hr hl ho := by
    obtain ⟨item, items, rfl⟩ := List.exists_cons_of_ne_nil hn
    obtain ⟨hi, his⟩ := List.forall_mem_cons.mp hs
    simp only [entryLines, hk.simple, List.append_assoc, List.cons_append, if_true] at hr
    have hb := behind_key hk hr rfl hl 1
    have ha := hb.ahead_line (by rintro c ⟨⟩; decide)
    have hr' := ha.ready (Int.le_refl _)
    have hf := hi.behind_item (hr'.item (.level rfl)) (outdented_itemLines level items ho)
    have hm := between_items his hf ho
    simpa [nodeTokens, itemTokens] using hm

theorem scans_object (hk : ∀ member ∈ members, IsPlainKey member.1)
    (hs : ∀ member ∈ members, Scans member.2) (hn : members ≠ []) : Scans (.object members) where
  startsToken indent rest := by
    obtain ⟨⟨key, value⟩, members, rfl⟩ := List.exists_cons_of_ne_nil hn
    rw [nodeLines, List.append_assoc]
    exact startsToken_entryLines (hk _ List.mem_cons_self) indent value
  node hr ho := between_object hk hs hn hr (top_lt_indented _ _) (ho.mono (Nat.le_add_right _ 2))
  entry {text rest levels around level kinds opening outer} houter hr hl ho := by
    have hlines : entryLines level outer (.object members) =
        simpleKey outer ++ ':' :: '\n' :: (spaces (level + 2) ++
          nodeLines (level + 2) (.object members)) := by
      obtain ⟨⟨key, value⟩, members, rfl⟩ := List.exists_cons_of_ne_nil hn
      simp [entryLines, nodeLines, houter.simple]
    rw [hlines] at hr
    simp only [List.append_assoc, List.cons_append] at hr
    have hb := behind_key houter hr rfl hl 1
    obtain ⟨⟨key, value⟩, members', rfl⟩ := List.exists_cons_of_ne_nil hn
    have hstart :
        StartsToken (nodeLines (level + 2) (.object ((key, value) :: members')) ++ rest) := by
      rw [nodeLines, List.append_assoc]
      exact startsToken_entryLines (hk _ List.mem_cons_self) (level + 2) value
    have hd := top_lt_indented level levels
    have hm := between_object hk hs hn ((hb.ahead_line hstart).ready (Int.le_of_lt hd)) hd
      (ho.mono (Nat.le_add_right _ 2))
    simpa [nodeTokens] using hm

theorem scans_of_printable (h : Printable depth t) : Scans t := by
  induction h with
  | leaf h => exact h.scans
  | array hn _ ih => exact scans_array ih hn
  | object hn hk _ _ ih => exact scans_object hk ih hn

theorem ready_start (h : StartsToken text) : Ready text [] true 0 text [] := by
  have hf : ((inBlocks [] true ⟨spaces 0 ++ text, .start⟩ []).withKeys [] none).front =
      .ok (inBlocks [] true ⟨text, Mark.start.forward (spaces 0)⟩ []) :=
    front_spaces h 0 .start nofun
  have hr : Reaches text ((inBlocks [] true ⟨spaces 0 ++ text, .start⟩ []).withKeys [] none) []
      text [] := .start text
  have ha : Ahead text [] true 0 text [] := ⟨_, _, _, hr, hf, rfl, rfl⟩
  exact ha.ready (by decide)

/-- A text of blocks ends with the first column. -/
theorem between_document (h : Printable depth t) (hn : ¬ Leaf t) :
    Between (nodeLines 0 t) [] [] (nodeTokens false t) := by
  have ho : Outdented 0 [] := ⟨0, [], rfl, startsToken_nil, Nat.le_refl 0⟩
  have hd : top [] < (0 : Nat) := by decide
  have hr := ready_start ((scans_of_printable h).startsToken 0 [])
  have hl : nodeLines 0 t ++ [] = nodeLines 0 t := List.append_nil _
  cases h with
  | leaf h => exact absurd h hn
  | array hne hi =>
    exact hl ▸ between_array (fun item hm => scans_of_printable (hi item hm)) hne hr hd ho
  | object hne hk _ hv =>
    exact hl ▸ between_object hk (fun member hm => scans_of_printable (hv member hm)) hne hr hd ho

/-- The tokens of what is written for a tree. -/
theorem ofText_print (h : Printable depth t) (hn : ¬ Leaf t) :
    ∃ tokens, TokenStream.ofText (print t).toList = ⟨tokens, none⟩ ∧
      tokens.map (·.kind) = nodeTokens false t ++ [.streamEnd] := by
  have hp : (print t).toList = nodeLines 0 t := by
    cases h with
    | leaf h => exact absurd h hn
    | array => exact String.toList_ofList
    | object => exact String.toList_ofList
  exact hp ▸ (hp ▸ between_document h hn : Between (print t).toList _ _ _).ofText
    (isAllowed_print t)

end ApiPresence.Yaml

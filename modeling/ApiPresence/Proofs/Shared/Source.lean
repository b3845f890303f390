import ApiPresence.Proofs.Json.Value
import ApiPresence.Yaml.Scalar
import ApiPresence.Yaml.Token.Stream

namespace ApiPresence

open Json (Blank)
open Text (digits? isDigit octets)
open FloatNotation (digitsOf wholeOf)

/-- A key as it is spelled, with the blanks in front of it and of its colon. -/
structure Key where
  front : List Char
  letters : List Char
  name : String
  back : List Char

/-- A text of JSON as it is spelled, and what its words and strings stand for. -/
inductive Source where
  | word (letters : List Char) (value : Tree)
  | string (letters : List Char) (value : String)
  | emptyArray (gap : List Char)
  | array (first : Spaced Source) (rest : List (Spaced Source))
  | emptyObject (gap : List Char)
  | object (first : Key × Spaced Source) (rest : List (Key × Spaced Source))

/-- A key between its quotes, up to its colon. -/
def Key.quoted (key : Key) : List Char := '"' :: (key.letters ++ '"' :: key.back)

namespace Source

mutual

def text : Source → List Char
  | .word letters _ => letters
  | .string letters _ => '"' :: (letters ++ ['"'])
  | .emptyArray gap => '[' :: (gap ++ [']'])
  | .array ⟨front, value, back⟩ rest =>
    '[' :: (front ++ (value.text ++ (back ++ itemsText rest)))
  | .emptyObject gap => '{' :: (gap ++ ['}'])
  | .object (key, ⟨front, value, back⟩) rest =>
    '{' :: (key.front ++ (key.quoted ++
      ':' :: (front ++ (value.text ++ (back ++ membersText rest)))))

/-- The text of an array behind an item. -/
def itemsText : List (Spaced Source) → List Char
  | [] => [']']
  | ⟨front, value, back⟩ :: rest =>
    ',' :: (front ++ (value.text ++ (back ++ itemsText rest)))

/-- The text of an object behind a member. -/
def membersText : List (Key × Spaced Source) → List Char
  | [] => ['}']
  | (key, ⟨front, value, back⟩) :: rest =>
    ',' :: (key.front ++ (key.quoted ++
      ':' :: (front ++ (value.text ++ (back ++ membersText rest)))))

end

mutual

def tree : Source → Tree
  | .word _ value => value
  | .string _ value => .string value
  | .emptyArray _ => .array []
  | .array ⟨_, value, _⟩ rest => .array (value.tree :: itemTrees rest)
  | .emptyObject _ => .ofEntries []
  | .object (key, ⟨_, value, _⟩) rest =>
    .ofEntries ((key.name, value.tree) :: memberTrees rest)

def itemTrees : List (Spaced Source) → List Tree
  | [] => []
  | ⟨_, value, _⟩ :: rest => value.tree :: itemTrees rest

def memberTrees : List (Key × Spaced Source) → List (String × Tree)
  | [] => []
  | (key, ⟨_, value, _⟩) :: rest => (key.name, value.tree) :: memberTrees rest

end

end Source

/-- A character that stands for itself between double quotes. -/
structure IsRaw (c : Char) : Prop where
  unquoted : c ≠ '"'
  unescaped : c ≠ '\\'
  solid : 32 ≤ c.toNat
  allowed : Yaml.isAllowed c = true
  unbroken : Yaml.isBreak c = false

instance (c : Char) : Decidable (IsRaw c) :=
  decidable_of_iff (c ≠ '"' ∧ c ≠ '\\' ∧ 32 ≤ c.toNat ∧ Yaml.isAllowed c = true ∧
    Yaml.isBreak c = false)
    ⟨fun ⟨hq, he, hs, ha, hb⟩ => ⟨hq, he, hs, ha, hb⟩,
      fun ⟨hq, he, hs, ha, hb⟩ => ⟨hq, he, hs, ha, hb⟩⟩

/-- What stands between double quotes for a text; no character takes two escapes. -/
inductive Spells : (letters text : List Char) → Prop
  | nil : Spells [] []
  | raw {letters text : List Char} {c : Char} (hc : IsRaw c) (h : Spells letters text) :
    Spells (c :: letters) (c :: text)
  | escape {letters text : List Char} {x c : Char} (hx : (x, c) ∈ escapes)
    (h : Spells letters text) : Spells ('\\' :: x :: letters) (c :: text)
  | digits {letters text digits : List Char} {c : Char} (hd : digits.length = 4)
    (hv : digits? 16 digits = some c.toNat) (h : Spells letters text) :
    Spells ('\\' :: 'u' :: (digits ++ letters)) (c :: text)

theorem Spells.of_raw {text : List Char} (h : text.all (IsRaw ·) = true) : Spells text text := by
  induction text with
  | nil => exact .nil
  | cons c text ih =>
    obtain ⟨hc, hcs⟩ := Bool.and_eq_true_iff.mp h
    exact .raw (of_decide_eq_true hc) (ih hcs)

def sign (negative : Bool) : List Char := if negative then ['-'] else []

/-- The text of a number with a point or an exponent, behind its sign. -/
structure DecimalText where
  whole : Nat
  fraction : List Char
  exponent : List Char

namespace DecimalText

def fractionText (d : DecimalText) : List Char :=
  if d.fraction = [] then [] else '.' :: d.fraction

def text (d : DecimalText) : List Char := digitsOf d.whole ++ (d.fractionText ++ d.exponent)

def significand (d : DecimalText) : Nat := Nat.ofDigitChars 10 d.fraction d.whole

/-- A decimal so short that both readers round it once, and the same way. -/
structure IsShort (d : DecimalText) (e : Int) : Prop where
  fraction : ∀ c ∈ d.fraction, isDigit c = true
  exponent : Yaml.exponent? d.exponent = some e
  marked : d.fraction ≠ [] ∨ d.exponent ≠ []
  significand : d.significand < 0x20000000000000
  kept : e.natAbs ≤ 0x7fffffff
  least : -22 ≤ e - d.fraction.length
  most : e - d.fraction.length ≤ 22

def value (d : DecimalText) (negative : Bool) (e : Int) : Binary64 :=
  .ofDecimal negative d.significand (e - d.fraction.length)

end DecimalText

/-- What stands without quotes: a word, a whole number of 64 bits or a short decimal. -/
inductive IsWord : (letters : List Char) → Tree → Prop
  | null : IsWord ['n', 'u', 'l', 'l'] .null
  | true : IsWord ['t', 'r', 'u', 'e'] (.bool true)
  | false : IsWord ['f', 'a', 'l', 's', 'e'] (.bool false)
  | whole (hn : -0x8000000000000000 ≤ n ∧ n < 0x10000000000000000) :
    IsWord (wholeOf n) (.number (.whole n hn))
  | decimal {d : DecimalText} {e : Int} (h : d.IsShort e) (negative : Bool) :
    IsWord (sign negative ++ d.text) (.number (.float (d.value negative e)))

/-- A key that stands on one line with its colon, no further from it than 1024 octets. -/
structure Key.IsShared (key : Key) : Prop where
  front : Blank key.front
  spells : Spells key.letters key.name.toList
  back : ∀ c ∈ key.back, Yaml.isBlank c = true
  short : octets key.quoted ≤ 1024
  own : key.name ≠ "<<"

theorem Key.IsShared.blank_back {key : Key} (h : key.IsShared) : Blank key.back := by
  intro c hc
  have hb := h.back c hc
  simp only [Yaml.isBlank, Bool.or_eq_true, decide_eq_true_eq] at hb
  rcases hb with rfl | rfl <;> rfl

/-- The texts that JSON and YAML have in common, and how deep they are nested at most. -/
inductive Source.IsShared : (depth : Nat) → Source → Prop
  | word (h : IsWord letters value) : IsShared depth (.word letters value)
  | string (h : Spells letters value.toList) : IsShared depth (.string letters value)
  | emptyArray (hg : Blank gap) : IsShared (depth + 1) (.emptyArray gap)
  | array (hg : ∀ item ∈ first :: rest, Blank item.front ∧ Blank item.back)
    (h : ∀ item ∈ first :: rest, IsShared depth item.value) :
    IsShared (depth + 1) (.array first rest)
  | emptyObject (hg : Blank gap) : IsShared (depth + 1) (.emptyObject gap)
  | object (hk : ∀ member ∈ first :: rest, member.1.IsShared)
    (hd : ((first :: rest).map (·.1.name)).Nodup)
    (hg : ∀ member ∈ first :: rest, Blank member.2.front ∧ Blank member.2.back)
    (h : ∀ member ∈ first :: rest, IsShared depth member.2.value) :
    IsShared (depth + 1) (.object first rest)

theorem blank_of_edge (hg : ∀ c ∈ gap, c ∈ [' ', '\n', '\r']) : Blank gap := by
  intro c hc
  have hx := hg c hc
  simp only [List.mem_cons, List.not_mem_nil, or_false] at hx
  rcases hx with rfl | rfl | rfl <;> rfl

/-- A text and the spaces and line breaks around it. -/
structure Spaced.IsShared (depth : Nat) (document : Spaced Source) : Prop where
  front : ∀ c ∈ document.front, c ∈ [' ', '\n', '\r']
  value : document.value.IsShared depth
  back : ∀ c ∈ document.back, c ∈ [' ', '\n', '\r']

def Spaced.text (document : Spaced Source) : List Char :=
  document.front ++ (document.value.text ++ document.back)

end ApiPresence

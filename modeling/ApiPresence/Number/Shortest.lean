import ApiPresence.Number

namespace ApiPresence

/-- A decimal number `digits · 10 ^ exponent`. -/
structure Decimal where
  digits : Nat
  exponent : Int
  deriving DecidableEq, Repr

namespace Binary64

/--
The magnitudes that round to a rank, in quarters of the smallest positive number. The ends belong to
them when the rank is even, because a half goes to the even neighbour.
-/
structure RoundingRange where
  low : Nat
  high : Nat
  closed : Bool

def roundingRange (rank : Nat) : RoundingRange :=
  let gap := Nat.pow 2 (gapLog rank)
  let value := 4 * units rank
  let below := if rank % 0x10000000000000 = 0 ∧ 0x20000000000000 ≤ rank then gap else 2 * gap
  ⟨value - below, value + 2 * gap, rank % 2 = 0⟩

def RoundingRange.contains (range : RoundingRange) (digits num den : Nat) : Bool :=
  if range.closed then range.low * den ≤ digits * num && digits * num ≤ range.high * den
  else range.low * den < digits * num && digits * num < range.high * den

/-- The step `10 ^ exponent` in quarters of the smallest positive number, as a quotient. -/
def stepRatio (exponent : Int) : Nat × Nat :=
  if exponent ≥ 0 then (4 * unitsPerOne * Nat.pow 10 exponent.toNat, 1)
  else (4 * unitsPerOne, Nat.pow 10 (-exponent).toNat)

/--
The nearest multiple of `10 ^ exponent` that rounds to the rank, if one of the two neighbours does.
-/
def onGrid? (rank : Nat) (exponent : Int) : Option Decimal :=
  let (num, den) := stepRatio exponent
  let value := 4 * units rank * den
  let range := roundingRange rank
  let low := value / num
  let lowFits := range.contains low num den
  let highFits := range.contains (low + 1) num den
  let distanceLow := value - low * num
  let distanceHigh := (low + 1) * num - value
  if lowFits && highFits then
    if distanceLow < distanceHigh || (distanceLow == distanceHigh && low % 2 == 0) then
      some ⟨low, exponent⟩
    else some ⟨low + 1, exponent⟩
  else if lowFits then some ⟨low, exponent⟩
  else if highFits then some ⟨low + 1, exponent⟩
  else none

def exponentBound (rank : Nat) : Int :=
  ((Nat.log2 (units rank) : Int) - 1074) * 1233 / 4096 + 3

/-- The first grid, from coarse to fine, on which a neighbour of the number rounds back to it. -/
def firstOnGrid (rank : Nat) : Nat → Int → Decimal
  | 0, _ => ⟨units rank, -1074⟩
  | steps + 1, exponent => (onGrid? rank exponent).getD (firstOnGrid rank steps (exponent - 1))

/-- The decimal with the fewest digits that rounds to the rank, and of those the nearest. -/
def shortest (rank : Nat) : Decimal :=
  if rank = 0 then ⟨0, 0⟩ else firstOnGrid rank 24 (exponentBound rank)

end Binary64

/-- Where positional notation ends and how an exponent is written. -/
structure FloatNotation where
  /-- Positional notation serves a point after at most this many digits. -/
  lastPoint : Int
  /-- Positional notation serves a point before at most one zero less than this. -/
  firstPoint : Int
  plusInExponent : Bool

namespace FloatNotation

def zeros (n : Nat) : List Char := List.replicate n '0'

def digitsOf (n : Nat) : List Char := Nat.toDigits 10 n

def wholeOf (n : Int) : List Char :=
  if n < 0 then '-' :: digitsOf n.natAbs else digitsOf n.natAbs

/-- A magnitude with its shortest digits, always with a fraction or an exponent. -/
def magnitude (style : FloatNotation) (d : Decimal) : List Char :=
  let digits := digitsOf d.digits
  let point : Int := digits.length + d.exponent
  if 0 ≤ d.exponent ∧ point ≤ style.lastPoint then
    digits ++ zeros d.exponent.toNat ++ ['.', '0']
  else if 0 < point ∧ point ≤ style.lastPoint then
    digits.take point.toNat ++ '.' :: digits.drop point.toNat
  else if style.firstPoint < point ∧ point ≤ 0 then
    '0' :: '.' :: zeros (-point).toNat ++ digits
  else
    let fraction := if digits.length ≤ 1 then [] else '.' :: digits.drop 1
    let sign := if style.plusInExponent && point - 1 ≥ 0 then ['+'] else []
    digits.take 1 ++ fraction ++ 'e' :: sign ++ wholeOf (point - 1)

def text (style : FloatNotation) (negative : Bool) (rank : Nat) : List Char :=
  let body := style.magnitude (Binary64.shortest rank)
  if negative then '-' :: body else body

end FloatNotation

def Binary64.fullText : Binary64 → String
  | finite negative rank =>
    let inFull : FloatNotation := ⟨400, -400, false⟩
    String.ofList (inFull.text negative rank)
  | infinite false => "inf"
  | infinite true => "-inf"
  | nan => "NaN"

end ApiPresence

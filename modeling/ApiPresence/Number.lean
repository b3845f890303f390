namespace ApiPresence

/--
A binary floating-point number with 53 significant bits. The finite numbers of one sign are counted
from zero upwards, so a larger rank is a larger magnitude.
-/
inductive Binary64 where
  | finite (negative : Bool) (rank : Fin 0x7ff0000000000000)
  | infinite (negative : Bool)
  | nan
  deriving DecidableEq, Repr, Inhabited

namespace Binary64

/-- How many of the smallest positive number make one. -/
def unitsPerOne : Nat := Nat.pow 2 1074

/-- The distance from a rank to the next, as a power of two of the smallest positive number. -/
def gapLog (rank : Nat) : Nat := rank / 0x10000000000000 - 1

def units (rank : Nat) : Nat :=
  (if rank < 0x10000000000000 then rank else rank % 0x10000000000000 + 0x10000000000000)
    * Nat.pow 2 (gapLog rank)

def roundHalfEven (num den : Nat) : Nat :=
  let low := num / den
  let rest := 2 * (num % den)
  if rest < den then low
  else if den < rest then low + 1
  else low + low % 2

/-- The rank nearest to a quotient, as if there were no largest finite number. -/
def nearestRank (num den : Nat) : Nat :=
  let scaled := num * unitsPerOne
  let gap := Nat.log2 (scaled / den) - 52
  roundHalfEven scaled (den * Nat.pow 2 gap) + gap * 0x10000000000000

/-- The number nearest to a quotient, infinite from half a gap above the largest finite number. -/
def ofRatio (negative : Bool) (num den : Nat) : Binary64 :=
  let rank := nearestRank num den
  if h : rank < 0x7ff0000000000000 then .finite negative ⟨rank, h⟩ else .infinite negative

def zero (negative : Bool) : Binary64 := .finite negative 0

def isFinite : Binary64 → Bool
  | .finite _ _ => true
  | _ => false

/-- Equality of values: the two zeros are equal, and so are all results without a value. -/
def sameValue : Binary64 → Binary64 → Bool
  | .finite n r, .finite n' r' => (n == n' && r == r') || (r == 0 && r' == 0)
  | x, y => x == y

/-- The number nearest to `digits · 10 ^ exponent`. -/
def ofDecimal (negative : Bool) (digits : Nat) (exponent : Int) : Binary64 :=
  let size := (Nat.log2 digits : Int) / 3
  if digits = 0 then zero negative
  else if exponent > 400 then .infinite negative
  else if exponent + size < -800 then zero negative
  else if exponent ≥ 0 then ofRatio negative (digits * Nat.pow 10 exponent.toNat) 1
  else ofRatio negative digits (Nat.pow 10 (-exponent).toNat)

end Binary64

/-- A number of a document: whole numbers of 64 bits, signed or not, are kept exactly. -/
inductive Number where
  | whole (value : Int) (inRange : -0x8000000000000000 ≤ value ∧ value < 0x10000000000000000)
  | float (value : Binary64)
  deriving DecidableEq

namespace Number

/-- A whole number, rounded to a float when 64 bits do not hold it. -/
def ofInt (value : Int) : Number :=
  if h : -0x8000000000000000 ≤ value ∧ value < 0x10000000000000000 then .whole value h
  else .float (Binary64.ofRatio (value < 0) value.natAbs 1)

def ofNat (value : Nat) : Number := ofInt value

instance : Inhabited Number := ⟨ofNat 0⟩

/-- Whole numbers and floats never agree, and floats agree by value. -/
def sameValue : Number → Number → Bool
  | .whole m _, .whole n _ => m == n
  | .float x, .float y => x.sameValue y
  | _, _ => false

end Number

end ApiPresence

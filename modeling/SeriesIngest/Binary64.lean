/-! The 64-bit floating point format, held as its bits. Two values are the same
cell exactly when their bits are; `equals` compares them as numbers. Rounding
is to the nearest value, ties to the even significand, in exact arithmetic. -/
namespace SeriesIngest

structure Binary64 where
  bits : UInt64
deriving DecidableEq

namespace Binary64

def isNegative (x : Binary64) : Bool := 0x8000000000000000 ≤ x.bits.toNat

def exponentField (x : Binary64) : Nat := x.bits.toNat / 0x10000000000000 % 2048

def fraction (x : Binary64) : Nat := x.bits.toNat % 0x10000000000000

def isFinite (x : Binary64) : Bool := x.exponentField != 2047

def isNaN (x : Binary64) : Bool := !x.isFinite && x.fraction != 0

def isZero (x : Binary64) : Bool := x.exponentField == 0 && x.fraction == 0

/-- A NaN equals nothing, and the two zeros equal each other. -/
def equals (x y : Binary64) : Bool :=
  !x.isNaN && !y.isNaN && (x == y || x.isZero && y.isZero)

def significand (x : Binary64) : Nat :=
  if x.exponentField = 0 then x.fraction else 0x10000000000000 + x.fraction

def scale (x : Binary64) : Int := max x.exponentField 1 - 1075

/-- A quotient as the nearest integer, a half to the even neighbour. -/
def nearestEven (num den : Nat) : Nat :=
  let q := num / den
  let twice := 2 * (num % den)
  if twice < den then q else if den < twice then q + 1 else q + q % 2

def scaled (num den : Nat) (e : Int) : Nat × Nat :=
  if 0 ≤ e then (num, den <<< e.toNat) else (num <<< (-e).toNat, den)

/-- The nearest value to the positive quotient `num / den`. The scale is the one that
leaves 53 significant bits, or the least there is; a carry out of the significand runs
into the exponent field, which is what the next binade needs. -/
def ofQuotient (num den : Nat) : Binary64 :=
  if num = 0 then ⟨0⟩ else
    let guess : Int := num.log2 - den.log2 - 52
    let (n, d) := scaled num den guess
    let e := max (if n / d < 0x10000000000000 then guess - 1 else guess) (-1074)
    let (n, d) := scaled num den e
    ⟨(min ((e + 1074).toNat * 0x10000000000000 + nearestEven n d) 0x7ff0000000000000).toUInt64⟩

def neg (x : Binary64) : Binary64 := ⟨x.bits ^^^ 0x8000000000000000⟩

def ofNat (n : Nat) : Binary64 := ofQuotient n 1

def ofInt (i : Int) : Binary64 :=
  if i < 0 then (ofNat i.natAbs).neg else ofNat i.natAbs

def ratio (num den : Nat) : Binary64 :=
  let whole (n : Nat) : Nat :=
    let x := ofNat n
    if 0 ≤ x.scale then x.significand <<< x.scale.toNat else x.significand >>> (-x.scale).toNat
  ofQuotient (whole num) (whole den)

def one : Binary64 := ⟨0x3ff0000000000000⟩

end Binary64
end SeriesIngest

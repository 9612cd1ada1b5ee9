/-!
Binary floating point numbers of 64 bits, kept as their bit pattern. Two numbers are the same when
their bits are, so each NaN equals itself and the two zeros differ.
-/

namespace Introspect

structure Binary64 where
  bits : UInt64
  deriving DecidableEq, Inhabited

namespace Binary64

def zero : Binary64 := ⟨0⟩

def isNegative (x : Binary64) : Bool := x.bits >>> 63 == 1

def exponentField (x : Binary64) : Nat := ((x.bits >>> 52) &&& 0x7FF).toNat

def fraction (x : Binary64) : Nat := (x.bits &&& 0xFFFFFFFFFFFFF).toNat

/-- A magnitude from its bits below the sign. -/
def ofMagnitude (negative : Bool) (magnitude : Nat) : Binary64 :=
  ⟨(if negative then 0x8000000000000000 else 0) ||| UInt64.ofNat magnitude⟩

def infinityMagnitude : Nat := 0x7FF0000000000000

/-- The leading bit of a normal number's mantissa, which is not stored. -/
def leadingBit : Nat := 0x10000000000000

/-- The quotient of `num` by `den`, a half going to the even neighbour. -/
def roundHalfEven (num den : Nat) : Nat :=
  let q := num / den
  let twice := 2 * (num % den)
  if den < twice || (twice == den && q % 2 == 1) then q + 1 else q

/-- The quotient `num / den` divided by `2 ^ e`, as a numerator and a denominator. -/
def scaled (num den : Nat) (e : Int) : Nat × Nat := (num <<< (-e).toNat, den <<< e.toNat)

/-- The exponent of the leading bit of `num / den`, for positive `num` and `den`. -/
def binaryExponent (num den : Nat) : Int :=
  let guess : Int := (Nat.log2 num : Int) - (Nat.log2 den : Int)
  let (n, d) := scaled num den guess
  -- The guess from the bit lengths is it or one above it.
  if d ≤ n then guess else guess - 1

/-- The magnitude nearest to `num / den`, for positive `num` and `den`. The least bit of a number
whose leading bit has weight `2 ^ e` weighs `2 ^ (e - 52)`, but never less than `2 ^ (-1074)`; a
mantissa that rounds up to `2 ^ 53` carries into the exponent by itself. -/
def nearestMagnitude (num den : Nat) : Nat :=
  let unit := max (binaryExponent num den - 52) (-1074)
  let (n, d) := scaled num den unit
  min ((unit + 1074).toNat * leadingBit + roundHalfEven n d) infinityMagnitude

/-- The number nearest to `digits * 10 ^ exponent`. Far beyond either end of the range the outcome
is known without the powers of ten: ten bits are worth more than three decimal places, and three
bits less than one. -/
def ofDecimal (negative : Bool) (digits : Nat) (exponent : Int) : Binary64 :=
  let bits : Int := Nat.log2 digits
  ofMagnitude negative <|
    if digits == 0 then 0
    else if 400 < bits * 3 / 10 + exponent then infinityMagnitude
    else if bits / 3 + 1 + exponent < -400 then 0
    else nearestMagnitude (digits * Nat.pow 10 exponent.toNat) (Nat.pow 10 (-exponent).toNat)

end Binary64

end Introspect

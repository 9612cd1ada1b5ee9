import Introspect.Decimal.Binary64

/-!
The decimal text of a binary number: the fewest digits that read back as that number, and among
those the nearest, written positionally without an exponent.
-/

namespace Introspect.Binary64

/-- A positive magnitude with the ends of the interval of reals that round to it, as numerators over
one denominator. The ends belong to the interval when `closed`. -/
structure Interval where
  low : Nat
  value : Nat
  high : Nat
  den : Nat
  closed : Bool

def Interval.contains (i : Interval) (num den : Nat) : Bool :=
  if i.closed then i.low * den <= num * i.den && num * i.den <= i.high * den
  else i.low * den < num * i.den && num * i.den < i.high * den

/-- The interval of a finite number other than zero, in quarters of its least bit. Below a power of
two the neighbour is only half as far away. -/
def interval (x : Binary64) : Interval :=
  let e := x.exponentField
  let f := x.fraction
  let m := if e == 0 then f else f + leadingBit
  let q : Int := (if e == 0 then -1074 else (e : Int) - 1075) - 2
  let grow := Nat.pow 2 q.toNat
  -- Half the way to each neighbour is two quarters, and one below a power of two.
  let low := if e != 0 && f == 0 then 4 * m - 1 else 4 * m - 2
  ⟨low * grow, 4 * m * grow, (4 * m + 2) * grow, Nat.pow 2 (-q).toNat, m % 2 == 0⟩

/-- The exponent of the leading decimal digit of `num / den`. -/
def leadingExponent (num den : Nat) : Int :=
  if den <= num then ((Nat.repr (num / den)).length : Int) - 1
  else
    let k := (Nat.repr (den / num)).length
    if den <= num * Nat.pow 10 (k - 1) then -((k : Int) - 1) else -(k : Int)

/-- A neighbour of the value on the grid of multiples of `10 ^ unit` that reads back as the value;
of two the nearer, and the upper one when both are equally near. -/
def gridHit (i : Interval) (unit : Int) : Option Nat :=
  let scale (c : Nat) : Nat × Nat := (c * Nat.pow 10 unit.toNat, Nat.pow 10 (-unit).toNat)
  let below := i.value * Nat.pow 10 (-unit).toNat / (i.den * Nat.pow 10 unit.toNat)
  let hit (c : Nat) : Bool := let (n, d) := scale c; i.contains n d
  if hit below && hit (below + 1) then
    let (n, d) := scale (2 * below + 1)
    some (if n * i.den <= 2 * i.value * d then below + 1 else below)
  else if hit below then some below
  else if hit (below + 1) then some (below + 1)
  else none

/-- Digits and exponent of the shortest decimal that reads back: the coarsest grid with a hit.
Seventeen digits are always enough. A hit on the next power of ten ends in a zero, which goes. -/
def shortest (x : Binary64) : Nat × Int :=
  let i := x.interval
  let top := leadingExponent i.value i.den
  let hit := (List.range 17).findSome? fun (n : Nat) =>
    -- The grid of `n + 1` digits.
    let unit := top - (n : Int)
    (gridHit i unit).map fun digits =>
      if digits % 10 == 0 then (digits / 10, unit + 1) else (digits, unit)
  hit.getD (0, 0)

/-- Writes `digits * 10 ^ exponent` without an exponent. -/
def positional (digits : Nat) (exponent : Int) : String :=
  let shown := (Nat.repr digits).toList
  let zeros (n : Nat) := List.replicate n '0'
  if 0 <= exponent then String.ofList (shown ++ zeros exponent.toNat)
  else
    let places := (-exponent).toNat
    let padded := zeros (places + 1 - shown.length) ++ shown
    let cut := padded.length - places
    String.ofList (padded.take cut ++ '.' :: padded.drop cut)

/-- Whole numbers have no point, and a NaN has no sign. -/
def text (x : Binary64) : String :=
  let sign := if x.isNegative then "-" else ""
  if x.exponentField == 0x7FF then
    if x.fraction == 0 then sign ++ "inf" else "NaN"
  else if x.exponentField == 0 && x.fraction == 0 then sign ++ "0"
  else let (digits, exponent) := x.shortest; sign ++ positional digits exponent

end Introspect.Binary64

import Introspect.Decimal.Binary64
import Introspect.Text.Numeral

/-!
Decimal numerals with a point or an exponent: an optional sign, digits before or after the point or
on both sides, and an exponent with its own sign.
-/

namespace Introspect.Binary64

/-- Takes the sign off. -/
def unsign : List Char → Bool × List Char
  | '-' :: rest => (true, rest)
  | '+' :: rest => (false, rest)
  | cs => (false, cs)

/-- The value of an exponent's digits. Past 65536 no digit counts any more: no numeral with such an
exponent is near the range of finite numbers. -/
def exponentValue (digits : List Char) : Nat :=
  digits.foldl (fun e c => if e < 65536 then 10 * e + (c.toNat - '0'.toNat) else e) 0

/-- The exponent after the mantissa, zero if there is nothing. -/
def exponent? : List Char → Option Int
  | [] => some 0
  | mark :: rest =>
    let (negative, digits) := unsign rest
    if (mark == 'e' || mark == 'E') && !digits.isEmpty && digits.all Char.isDigit then
      let e : Int := exponentValue digits
      some (if negative then -e else e)
    else none

/-- The number nearest to a numeral. -/
def read? (cs : List Char) : Option Binary64 := do
  let (negative, cs) := unsign cs
  let whole := cs.takeWhile Char.isDigit
  let rest := cs.dropWhile Char.isDigit
  let (fraction, rest) := match rest with
    | '.' :: rest => (rest.takeWhile Char.isDigit, rest.dropWhile Char.isDigit)
    | _ => ([], rest)
  -- The digits of the fraction are taken into the whole and shift the exponent.
  let digits ← Text.digits? (whole ++ fraction)
  let e ← exponent? rest
  return ofDecimal negative digits (e - fraction.length)

end Introspect.Binary64

/-!
Whole numbers in ASCII digits, with the bounds of the machine words that hold them.
-/

namespace Introspect.Text

/-- The value of a text of one digit or more. -/
def digits? (cs : List Char) : Option Nat :=
  if !cs.isEmpty && cs.all Char.isDigit then
    some (cs.foldl (fun n c => 10 * n + (c.toNat - '0'.toNat)) 0)
  else none

/-- An unsigned number of 64 bits, with an optional plus sign. -/
def unsigned? (cs : List Char) : Option Nat :=
  let digits := match cs with
    | '+' :: rest => rest
    | _ => cs
  (digits? digits).filter (· < 0x10000000000000000)

/-- A signed number of 64 bits, with an optional sign. -/
def signed? : List Char → Option Int64
  | '-' :: rest => do
    let n ← digits? rest
    if n <= 0x8000000000000000 then some (Int64.ofInt (-(n : Int))) else none
  | '+' :: rest => positive? rest
  | cs => positive? cs
where
  positive? (cs : List Char) : Option Int64 := do
    let n ← digits? cs
    if n < 0x8000000000000000 then some (Int64.ofNat n) else none

end Introspect.Text

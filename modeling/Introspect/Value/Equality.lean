import Introspect.Value.Weight

/-!
Equality of values. Objects are compared by identity, arrays and lists by identity or by their
element type and contents, all else by contents.
-/

namespace Introspect.Value

/-- Compares pairs from left to right up to the first difference. -/
def equalPairs? (equal? : Value → Value → Option Bool) : List (Value × Value) → Option Bool
  | [] => some true
  | (v, w) :: rest =>
    match equal? v w with
    | some true => equalPairs? equal? rest
    | result => result

/-- Compares fields by name and then by value. -/
def equalFields? (equal? : Value → Value → Option Bool) : Fields → Fields → Option Bool
  | [], [] => some true
  | (n, v) :: fs, (m, w) :: gs =>
    if n == m then
      match equal? v w with
      | some true => equalFields? equal? fs gs
      | result => result
    else some false
  | _, _ => some false

/-- There is no answer when the fuel does not suffice. -/
def equalWith? (h : Heap) : (fuel : Nat) → Value → Value → Option Bool
  | 0, _, _ => none
  | fuel + 1, v, w =>
    let sequences (i j : SequenceId) : Option Bool :=
      let s := h.sequence i
      let t := h.sequence j
      -- The same sequence is equal to itself without a look inside, also if it contains itself.
      if i == j then some true
      else if s.elem == t.elem && s.items.length == t.items.length then
        equalPairs? (equalWith? h fuel) (s.items.zip t.items)
      else some false
    match v, w with
    | null, null => some true
    | bool a, bool b => some (a == b)
    | int a, int b => some (a == b)
    | float a, float b => some (decide (a = b))
    | string a, string b => some (a == b)
    | struct ty fs, struct ty' gs =>
      if ty == ty' && fs.length == gs.length then equalFields? (equalWith? h fuel) fs gs
      else some false
    | object i, object j => some (i == j)
    | array i, array j => sequences i j
    | list i, list j => sequences i j
    | _, _ => some false

/-- A comparison that ends never comes to the same pair of nodes again on its way down, so the
number of pairs is enough fuel for it. There is no answer when a comparison would run for ever,
through a sequence that contains itself. -/
def equal? (h : Heap) (v w : Value) : Option Bool :=
  let nodes := h.weight + v.weight + w.weight + 1
  equalWith? h (nodes * nodes) v w

def equal (h : Heap) (v w : Value) : Bool := (equal? h v w).getD false

end Introspect.Value

import Introspect.Decimal.Shortest
import Introspect.Value.Weight

/-!
The text of a value. An object shows its fields only when it is the value printed; reached through
another value it shows its type alone, so cycles of objects end there.
-/

namespace Introspect.Value

def recordText (ty : Ty) (fields : List String) : String :=
  ty.text ++ " \x7b " ++ ", ".intercalate fields ++ " \x7d"

/-- The text of a value, or of one that is `nested` in another. There is none when the fuel does not
suffice. -/
def textWith? (h : Heap) : (fuel : Nat) → (nested : Bool) → Value → Option String
  | 0, _, _ => none
  | fuel + 1, nested, v =>
    let fieldTexts (fields : Fields) : Option (List String) :=
      fields.mapM fun f => do return f.1 ++ ": " ++ (← textWith? h fuel true f.2)
    match v with
    | null => some "null"
    | bool b => some (if b then "true" else "false")
    | int n => some (toString n.toInt)
    | float x => some x.text
    | string s => some s
    | struct ty fields => (fieldTexts fields).map (recordText ty)
    | object id =>
      let r := h.record id
      if nested then some ("&" ++ r.ty.text) else (fieldTexts r.fields).map (recordText r.ty)
    | array id | list id =>
      ((h.sequence id).items.mapM (textWith? h fuel true)).map fun items =>
        "[" ++ ", ".intercalate items ++ "]"

/-- There is none when a sequence contains itself. -/
def text? (h : Heap) (v : Value) : Option String :=
  textWith? h (h.weight + v.weight + 1) false v

def text (h : Heap) (v : Value) : String := (text? h v).getD ""

end Introspect.Value

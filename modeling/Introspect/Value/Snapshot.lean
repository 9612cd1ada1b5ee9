import Introspect.Value.Weight

/-!
A picture of values and of all that they reach in the heap. Each shared value carries a label, given
in the order of the first visit, and a later visit is only a reference to it.
-/

namespace Introspect

inductive Snapshot where
  | null
  | bool (b : Bool)
  | int (n : Int64)
  | float (x : Binary64)
  | string (s : String)
  | struct (ty : Ty) (fields : List (String × Snapshot))
  | object (label : Nat) (ty : Ty) (fields : List (String × Snapshot))
  | array (label : Nat) (elem : Ty) (items : List Snapshot)
  | list (label : Nat) (elem : Option Ty) (items : List Snapshot)
  | seen (label : Nat)

namespace Snapshot

/-- The shared values seen so far; the label of one is its position. -/
abbrev Labels := Array (RecordId ⊕ SequenceId)

/-- The label that a shared value has already, or its new one. -/
def label (shared : RecordId ⊕ SequenceId) : StateM Labels (Nat × Bool) := fun labels =>
  match labels.findIdx? (· == shared) with
  | some n => ((n, true), labels)
  | none => ((labels.size, false), labels.push shared)

/-- Depth first. The way down passes each node at most once, so a `fuel` of all the nodes there are
is never used up. -/
def take (h : Heap) : (fuel : Nat) → Value → StateM Labels Snapshot
  | 0, _ => pure .null
  | fuel + 1, v =>
    let takeFields (fields : Fields) : StateM Labels (List (String × Snapshot)) :=
      fields.mapM fun f => do return (f.1, ← take h fuel f.2)
    match v with
    | .null => pure .null
    | .bool b => pure (.bool b)
    | .int n => pure (.int n)
    | .float x => pure (.float x)
    | .string s => pure (.string s)
    | .struct ty fields => return .struct ty (← takeFields fields)
    | .object id => do
      -- The label comes before the contents, so a way back to here ends in `seen`.
      let (n, old) ← label (.inl id)
      if old then return .seen n
      let r := h.record id
      return .object n r.ty (← takeFields r.fields)
    | .array id => do
      let (n, old) ← label (.inr id)
      if old then return .seen n
      let s := h.sequence id
      return .array n (s.elem.getD .object) (← s.items.mapM (take h fuel))
    | .list id => do
      let (n, old) ← label (.inr id)
      if old then return .seen n
      let s := h.sequence id
      return .list n s.elem (← s.items.mapM (take h fuel))

def ofValues (h : Heap) (values : List Value) : List Snapshot :=
  let fuel := h.weight + Value.weightAll values + 1
  (values.mapM (take h fuel) #[]).1

def ofValue (h : Heap) (v : Value) : Snapshot := (take h (h.weight + v.weight + 1) v #[]).1

end Snapshot

end Introspect

import Introspect.Value.Basic

/-!
The weight of values: how many nodes they have, a shared value being one. No way down from a value
that passes each shared value once is longer than the weights of the value and the heap together.
-/

namespace Introspect

namespace Value

mutual

def weight : Value → Nat
  | struct _ fields => weightFields fields + 1
  | _ => 1

def weightFields : List (String × Value) → Nat
  | [] => 0
  | (_, v) :: rest => weight v + weightFields rest

end

def weightAll : List Value → Nat
  | [] => 0
  | v :: rest => weight v + weightAll rest

end Value

namespace Heap

def weightSequences : List Sequence → Nat
  | [] => 0
  | s :: rest => Value.weightAll s.items + 1 + weightSequences rest

def weightRecords : List Record → Nat
  | [] => 0
  | r :: rest => Value.weightFields r.fields + 1 + weightRecords rest

def weight (h : Heap) : Nat :=
  weightRecords h.records.toList + weightSequences h.sequences.toList

end Heap

end Introspect

import Introspect.Assoc

/-!
A map from keys to values in the order of insertion, with the one operation that a cache needs:
the value of a key, computed and kept on a miss.
-/

namespace Introspect

structure KeyedMap (κ α : Type) where
  entries : List (κ × α)

namespace KeyedMap

variable {κ α : Type}

def empty : KeyedMap κ α := ⟨[]⟩

def size (m : KeyedMap κ α) : Nat := m.entries.length

def isEmpty (m : KeyedMap κ α) : Bool := m.entries.isEmpty

variable [BEq κ]

def find? (m : KeyedMap κ α) (k : κ) : Option α := Assoc.find? k m.entries

def contains (m : KeyedMap κ α) (k : κ) : Bool := (m.find? k).isSome

/-- An equal key that is there already stays. -/
def insert (m : KeyedMap κ α) (k : κ) (a : α) : KeyedMap κ α := ⟨Assoc.set k a m.entries⟩

def erase (m : KeyedMap κ α) (k : κ) : KeyedMap κ α := ⟨Assoc.erase k m.entries⟩

/-- The value of a key. On a miss `compute` runs, and its value is kept unless it fails. -/
def getOrCompute {ε : Type} (m : KeyedMap κ α) (k : κ) (compute : Unit → Except ε α) :
    Except ε α × KeyedMap κ α :=
  match m.find? k with
  | some a => (.ok a, m)
  | none =>
    match compute () with
    | .ok a => (.ok a, m.insert k a)
    | .error e => (.error e, m)

theorem find?_insert [EquivBEq κ] (m : KeyedMap κ α) (k k' : κ) (a : α) :
    (m.insert k a).find? k' = if k == k' then some a else m.find? k' :=
  Assoc.find?_set k k' a m.entries

end KeyedMap

end Introspect

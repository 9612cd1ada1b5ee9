import Introspect.Assoc
import Introspect.Decimal.Binary64
import Introspect.Error
import Introspect.Ty.Basic

/-!
Dynamic values and the heap that shared values refer to. A struct is copied with its fields, while
an object, an array and a list are addresses of records and sequences in the heap.
-/

namespace Introspect

abbrev RecordId := Nat
abbrev SequenceId := Nat
abbrev SlotId := Nat

inductive Value where
  | null
  | bool (b : Bool)
  | int (n : Int64)
  | float (x : Binary64)
  | string (s : String)
  | struct (ty : Ty) (fields : List (String × Value))
  | object (id : RecordId)
  | array (id : SequenceId)
  | list (id : SequenceId)

instance : Inhabited Value := ⟨.null⟩

/-- Fields in ascending order of their names. -/
abbrev Fields := List (String × Value)

structure Record where
  ty : Ty
  fields : Fields

/-- `elem` is missing in an untyped list. -/
structure Sequence where
  elem : Option Ty
  items : List Value

/-- Shared records and sequences, and the slots of static fields. -/
structure Heap where
  records : Array Record
  sequences : Array Sequence
  slots : Array Value

namespace Heap

def empty : Heap := ⟨#[], #[], #[]⟩

def record (h : Heap) (id : RecordId) : Record := h.records[id]?.getD ⟨.object, []⟩

def sequence (h : Heap) (id : SequenceId) : Sequence := h.sequences[id]?.getD ⟨none, []⟩

def slot (h : Heap) (id : SlotId) : Value := h.slots[id]?.getD .null

def setRecord (h : Heap) (id : RecordId) (r : Record) : Heap :=
  { h with records := h.records.setIfInBounds id r }

def setSequence (h : Heap) (id : SequenceId) (s : Sequence) : Heap :=
  { h with sequences := h.sequences.setIfInBounds id s }

def setSlot (h : Heap) (id : SlotId) (v : Value) : Heap :=
  { h with slots := h.slots.setIfInBounds id v }

def addRecord (h : Heap) (r : Record) : RecordId × Heap :=
  (h.records.size, { h with records := h.records.push r })

def addSequence (h : Heap) (s : Sequence) : SequenceId × Heap :=
  (h.sequences.size, { h with sequences := h.sequences.push s })

def addSlot (h : Heap) (v : Value) : SlotId × Heap :=
  (h.slots.size, { h with slots := h.slots.push v })

/-! ### What is there after a write -/

theorem record_setRecord (h : Heap) (i j : RecordId) (r : Record) :
    (h.setRecord i r).record j = if i = j ∧ i < h.records.size then r else h.record j := by
  grind [record, setRecord]

theorem sequence_setSequence (h : Heap) (i j : SequenceId) (s : Sequence) :
    (h.setSequence i s).sequence j = if i = j ∧ i < h.sequences.size then s else h.sequence j := by
  grind [sequence, setSequence]

theorem slot_setSlot (h : Heap) (i j : SlotId) (v : Value) :
    (h.setSlot i v).slot j = if i = j ∧ i < h.slots.size then v else h.slot j := by
  grind [slot, setSlot]

end Heap

/-- A computation that may fail and may write to the heap. What it has written stays written when
it fails. -/
abbrev Action := ExceptT Error (StateM Heap)

namespace Action

/-- Runs a computation that only looks at the heap. -/
def read {α : Type} (f : Heap → Except Error α) : Action α := fun h => (f h, h)

def write (f : Heap → Heap) : Action Unit := fun h => (.ok (), f h)

end Action

namespace Value

def isNull : Value → Bool
  | null => true
  | _ => false

/-- The type that a value shows when the program runs; `null` counts as an object. -/
def typeOf (h : Heap) : Value → Ty
  | null => .object
  | bool _ => .bool
  | int _ => .int
  | float _ => .float
  | string _ => .string
  | struct ty _ => ty
  | object id => (h.record id).ty
  | array id => .array ((h.sequence id).elem.getD .object)
  | list id =>
    match (h.sequence id).elem with
    | some elem => .list elem
    | none => .arrayList

def asBool? : Value → Option Bool
  | bool b => some b
  | _ => none

def asInt? : Value → Option Int64
  | int n => some n
  | _ => none

def asFloat? : Value → Option Binary64
  | float x => some x
  | _ => none

def asString? : Value → Option String
  | string s => some s
  | _ => none

/-- Whether values of this shape are copied when they are read. -/
def hasValueSemantics : Value → Bool
  | bool _ | int _ | float _ | struct .. => true
  | _ => false

/-! ### Fields -/

def field (h : Heap) (name : String) (v : Value) : Except Error Value :=
  let found (fields : Fields) : Except Error Value :=
    match Assoc.find? name fields with
    | some value => .ok value
    | none => .error (.memberNotFound (v.typeOf h).text name)
  match v with
  | struct _ fields => found fields
  | object id => found (h.record id).fields
  | null => .error (.nullReference name)
  | other => .error (.typeMismatch "record" (other.typeOf h).text)

/-- Writes a field and gives the owner to store back: a changed copy of a struct, or the object
itself. -/
def withField (owner : Value) (name : String) (value : Value) : Action Value :=
  match owner with
  | struct ty fields => pure (struct ty (Assoc.put name value fields))
  | object id => do
    Action.write fun h =>
      let r := h.record id
      h.setRecord id { r with fields := Assoc.put name value r.fields }
    pure owner
  | null => throw (.nullReference name)
  | other => Action.read fun h => .error (.typeMismatch "record" (other.typeOf h).text)

/-! ### Elements -/

def sequenceId (h : Heap) : Value → Except Error SequenceId
  | array id | list id => .ok id
  | null => .error (.nullReference "[]")
  | other => .error (.typeMismatch "array or list" (other.typeOf h).text)

def length (h : Heap) (v : Value) : Except Error Nat :=
  (v.sequenceId h).map fun id => (h.sequence id).items.length

def element (h : Heap) (index : Nat) (v : Value) : Except Error Value := do
  let items := (h.sequence (← v.sequenceId h)).items
  match items[index]? with
  | some item => .ok item
  | none => .error (.indexOutOfRange index items.length)

/-- Stores an element in place. The owner to store back is the sequence itself, as all sequences are
shared. -/
def withElement (owner : Value) (index : Nat) (value : Value) : Action Value := do
  let id ← Action.read owner.sequenceId
  let s ← Action.read fun h => .ok (h.sequence id)
  if index < s.items.length then
    Action.write fun h => h.setSequence id { s with items := s.items.set index value }
    pure owner
  else throw (.indexOutOfRange index s.items.length)

/-! ### New shared values -/

def newObject (ty : Ty) (fields : Fields) : Action Value := fun h =>
  let (id, h) := h.addRecord ⟨ty, fields⟩
  (.ok (object id), h)

def newArray (elem : Ty) (items : List Value) : Action Value := fun h =>
  let (id, h) := h.addSequence ⟨some elem, items⟩
  (.ok (array id), h)

def newList (elem : Option Ty) (items : List Value) : Action Value := fun h =>
  let (id, h) := h.addSequence ⟨elem, items⟩
  (.ok (list id), h)

end Value

end Introspect

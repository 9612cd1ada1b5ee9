import Introspect.Proofs.Except
import Introspect.Value.Basic

/-!
Places: the variable of a root, the fields of records, the items of sequences and the slots. A store
changes the content of one place and of no other. In a closed heap no address dangles, and a store
of a live value keeps it closed.
-/

namespace Introspect

/-! ### Running an action -/

namespace Action

variable {α β : Type}

theorem pure_apply (a : α) (h : Heap) : (pure a : Action α) h = (.ok a, h) := rfl

theorem throw_apply (e : Error) (h : Heap) : (throw e : Action α) h = (.error e, h) := rfl

theorem read_apply (f : Heap → Except Error α) (h : Heap) : Action.read f h = (f h, h) := rfl

theorem bind_apply (x : Action α) (f : α → Action β) (h : Heap) :
    (x >>= f) h = match x h with
      | (.ok a, h') => f a h'
      | (.error e, h') => (.error e, h') := by
  rw [Except.bind_apply]
  rcases x h with ⟨e | a, h'⟩ <;> rfl

theorem result_eq_iff {a b : Except Error α} {h h' : Heap} :
    @Eq (Id (Except Error α × Heap)) (a, h) (b, h') ↔ a = b ∧ h = h' :=
  Iff.of_eq (Prod.mk.injEq a h b h')

theorem bind_ok {x : Action α} {f : α → Action β} {h h' : Heap} {a : α} (hx : x h = (.ok a, h')) :
    (x >>= f) h = f a h' := by
  rw [bind_apply, hx]

theorem bind_error {x : Action α} {f : α → Action β} {h h' : Heap} {e : Error}
    (hx : x h = (.error e, h')) : (x >>= f) h = (.error e, h') := by
  rw [bind_apply, hx]

end Action

/-! ### Places -/

/-- Where one value is kept. -/
inductive Place where
  /-- The variable of the root. -/
  | root
  | field (id : RecordId) (name : String)
  | item (id : SequenceId) (index : Nat)
  | slot (id : SlotId)
  deriving DecidableEq

namespace Heap

/-- What a place of the heap holds. The fields of a record come and go with their contents. -/
def content? (h : Heap) : Place → Option Value
  | .root => none
  | .field id name => Assoc.find? name (h.record id).fields
  | .item id index => (h.sequence id).items[index]?
  | .slot id => some (h.slot id)

def store (h : Heap) (v : Value) : Place → Heap
  | .root => h
  | .field id name =>
    h.setRecord id { h.record id with fields := Assoc.put name v (h.record id).fields }
  | .item id index =>
    h.setSequence id { h.sequence id with items := (h.sequence id).items.set index v }
  | .slot id => h.setSlot id v

/-- Whether the heap can take a value at a place. -/
def Holds (h : Heap) : Place → Prop
  | .root => False
  | .field id _ => id < h.records.size
  | .item id index => index < (h.sequence id).items.length
  | .slot id => id < h.slots.size

theorem lt_size_of_item {h : Heap} {id : SequenceId} {index : Nat}
    (hi : index < (h.sequence id).items.length) : id < h.sequences.size := by
  rcases Nat.lt_or_ge id h.sequences.size with hlt | hge
  · exact hlt
  · have hd : h.sequence id = ⟨none, []⟩ := by
      simp only [sequence, Array.getElem?_eq_none hge, Option.getD_none]
    rw [hd] at hi
    exact absurd hi (by simp)

theorem lt_size_of_field {h : Heap} {id : RecordId} {name : String} {v : Value}
    (hv : Assoc.find? name (h.record id).fields = some v) : id < h.records.size := by
  rcases Nat.lt_or_ge id h.records.size with hlt | hge
  · exact hlt
  · simp only [record, Array.getElem?_eq_none hge, Option.getD_none] at hv
    cases hv

theorem content?_store_self {h : Heap} {q : Place} (v : Value) (hq : h.Holds q) :
    (h.store v q).content? q = some v := by
  cases q with
  | root => exact hq.elim
  | field id name =>
    have hid : id < h.records.size := hq
    simp [content?, store, record_setRecord, hid, Assoc.find?_put]
  | item id index =>
    have hi : index < (h.sequence id).items.length := hq
    simp [content?, store, sequence_setSequence, lt_size_of_item hi, hi]
  | slot id =>
    have hid : id < h.slots.size := hq
    simp [content?, store, slot_setSlot, hid]

theorem content?_store_of_ne {h : Heap} {q q' : Place} (v : Value) (hne : q ≠ q') :
    (h.store v q).content? q' = h.content? q' := by
  cases q with
  | root => rfl
  | field id name =>
    cases q' with
    | field id' name' =>
      simp only [content?, store, record_setRecord]
      split
      next hid =>
        -- Two places in one record differ in their names.
        obtain ⟨rfl, _⟩ := hid
        have hn : ¬(name == name') = true := by
          intro he
          exact hne (by rw [eq_of_beq he])
        rw [Assoc.find?_put, if_neg hn]
      next => rfl
    | _ => rfl
  | item id index =>
    cases q' with
    | item id' index' =>
      simp only [content?, store, sequence_setSequence]
      split
      next hid =>
        obtain ⟨rfl, _⟩ := hid
        have hn : index ≠ index' := by
          rintro rfl
          exact hne rfl
        exact List.getElem?_set_ne hn
      next => rfl
    | _ => rfl
  | slot id =>
    cases q' with
    | slot id' =>
      have hn : ¬(id = id' ∧ id < h.slots.size) := by
        rintro ⟨rfl, _⟩
        exact hne rfl
      simp only [content?, store, slot_setSlot, if_neg hn]
    | _ => rfl

/-- A store leaves the heap with the records, the sequences and the slots that it has. -/
theorem sizes_store (h : Heap) (v : Value) (q : Place) :
    (h.store v q).records.size = h.records.size ∧
      (h.store v q).sequences.size = h.sequences.size ∧
      (h.store v q).slots.size = h.slots.size := by
  cases q <;> simp [store, setRecord, setSequence, setSlot]

end Heap

/-- The variable of a root with the heap that its value refers to. -/
structure Memory where
  root : Value
  heap : Heap

namespace Memory

def content? (m : Memory) : Place → Option Value
  | .root => some m.root
  | q => m.heap.content? q

def store (m : Memory) (v : Value) : Place → Memory
  | .root => { m with root := v }
  | q => { m with heap := m.heap.store v q }

theorem store_of_ne_root (m : Memory) (v : Value) {q : Place} (hq : q ≠ .root) :
    m.store v q = { m with heap := m.heap.store v q } := by
  cases q with
  | root => exact absurd rfl hq
  | _ => rfl

theorem content?_of_ne_root (m : Memory) {q : Place} (hq : q ≠ .root) :
    m.content? q = m.heap.content? q := by
  cases q with
  | root => exact absurd rfl hq
  | _ => rfl

theorem content?_store_of_ne {m : Memory} {q q' : Place} (v : Value) (hne : q ≠ q') :
    (m.store v q).content? q' = m.content? q' := by
  by_cases hq : q = .root
  · subst hq
    rw [content?_of_ne_root _ hne.symm, content?_of_ne_root _ hne.symm]
    rfl
  · rw [store_of_ne_root m v hq]
    by_cases hq' : q' = .root
    · subst hq'
      rfl
    · rw [content?_of_ne_root _ hq', content?_of_ne_root _ hq']
      exact Heap.content?_store_of_ne v hne

end Memory

/-! ### Live values -/

namespace Value

mutual

/-- Whether the heap has what the addresses in a value refer to. -/
def Live (h : Heap) : Value → Prop
  | struct _ fields => LiveFields h fields
  | object id => id < h.records.size
  | array id | list id => id < h.sequences.size
  | _ => True

def LiveFields (h : Heap) : List (String × Value) → Prop
  | [] => True
  | (_, v) :: rest => Live h v ∧ LiveFields h rest

end

theorem liveFields_iff {h : Heap} {fields : Fields} :
    LiveFields h fields ↔ ∀ e ∈ fields, e.2.Live h := by
  induction fields with
  | nil => simp [LiveFields]
  | cons e rest ih => rw [List.forall_mem_cons, ← ih, LiveFields]

theorem live_of_find? {h : Heap} {name : String} {v : Value} {fields : Fields}
    (hf : LiveFields h fields) (hv : Assoc.find? name fields = some v) : v.Live h := by
  obtain ⟨e, he, rfl⟩ := Assoc.exists_mem_of_find? hv
  exact liveFields_iff.mp hf e he

end Value

/-- A heap in which no address dangles. Addresses come from the heap alone, so every heap that a
program has is one. -/
structure Heap.Closed (h : Heap) : Prop where
  records : ∀ id, Value.LiveFields h (h.record id).fields
  items : ∀ id, ∀ v ∈ (h.sequence id).items, v.Live h
  slots : ∀ id, (h.slot id).Live h

namespace Heap.Closed

theorem live_content {h : Heap} (hc : h.Closed) {q : Place} {v : Value}
    (hv : h.content? q = some v) : v.Live h := by
  cases q with
  | root => cases hv
  | field id name => exact Value.live_of_find? (hc.records id) hv
  | item id index => exact hc.items id v (List.mem_of_getElem? hv)
  | slot id =>
    cases hv
    exact hc.slots id

end Heap.Closed

end Introspect

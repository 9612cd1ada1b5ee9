import Introspect.Path.Access
import Introspect.Proofs.Memory

/-!
Steps to fields and elements. Each either goes to one place of the heap or to a field of a copied
struct, and the statements say what it reads there and what a write through it stores.
-/

namespace Introspect.PathStep

/-- Whether the step goes to a field or to an element. -/
def isStored : PathStep → Bool
  | member (.field f) isStatic => f.isStatic == isStatic
  | member .. => false
  | arrayElement .. | typedElement .. | untypedElement .. => true

/-- The place that the step goes to from its owner. There is none in a struct, which is a copy. -/
def place? : PathStep → Value → Option Place
  | member (.field f) _, owner =>
    match f.storage, owner with
    | .slot id, _ => some (.slot id)
    | .record, .object id => some (.field id f.name)
    | .record, _ => none
  | member .., _ => none
  | arrayElement index _, owner | typedElement index _, owner | untypedElement index, owner =>
    match owner with
    | .array id | .list id => some (.item id index)
    | _ => none

/-- Whether the step reads from owners of this shape. -/
def Suits : PathStep → Value → Prop
  | member _ isStatic, owner => isStatic = true ∨ owner.isNull = false
  | arrayElement .., owner => isArray owner = true
  | typedElement .., owner | untypedElement .., owner => isList owner = true

/-- What the step finds, in its place of the heap or in the struct that owns it. -/
def found? (s : PathStep) (owner : Value) (h : Heap) : Option Value :=
  match s.place? owner, owner with
  | some q, _ => h.content? q
  | none, .struct _ fields => Assoc.find? s.text fields
  | none, _ => none

/-- Whether the slot of a static step exists. -/
def SlotExists (h : Heap) : PathStep → Prop
  | member (.field f) _ => ∀ id, f.storage = .slot id → id < h.slots.size
  | _ => True

theorem element_eq_ok_iff {h : Heap} {index : Nat} {owner v : Value} {id : SequenceId}
    (ho : owner.sequenceId h = .ok id) :
    owner.element h index = .ok v ↔ h.content? (.item id index) = some v := by
  simp only [Value.element, ho, bind, Except.bind, Heap.content?]
  split
  next item hi => simp [hi]
  next hn => simp [hn]

theorem readElement_eq_ok_iff {s : PathStep} {owner v : Value} {h h' : Heap} {fits : Bool}
    {shape : String} {index : Nat} (ho : fits = true → ∃ id, owner.sequenceId h = .ok id ∧
      s.place? owner = some (.item id index)) :
    s.readElement fits shape index owner h = (.ok v, h') ↔
      h' = h ∧ fits = true ∧ s.found? owner h = some v := by
  simp only [readElement, Action.read_apply, Action.result_eq_iff]
  cases fits with
  | false =>
    simp only [Bool.false_eq_true, if_false, false_and, and_false, iff_false, not_and]
    intro hv
    split at hv <;> cases hv
  | true =>
    obtain ⟨id, hid, hp⟩ := ho rfl
    simp only [if_true, element_eq_ok_iff hid, true_and, found?, hp]
    exact ⟨fun hv => ⟨hv.2.symm, hv.1⟩, fun hv => ⟨hv.2, hv.1.symm⟩⟩

theorem isStatic_eq {f : FieldInfo} {isStatic : Bool}
    (hs : (member (.field f) isStatic).isStored = true) : isStatic = (f.storage != .record) :=
  (beq_iff_eq.mp hs).symm

theorem field_eq_ok_iff {f : FieldInfo} (hf : f.storage = .record) {isStatic : Bool}
    {owner v : Value} {h : Heap} :
    owner.field h f.name = .ok v ↔ (member (.field f) isStatic).found? owner h = some v := by
  obtain ⟨name, ty, readOnly, storage⟩ := f
  cases hf
  cases owner with
  | struct ty fields =>
    change Value.field h name (.struct ty fields) = .ok v ↔ Assoc.find? name fields = some v
    simp only [Value.field]
    split
    next w hw => simp [hw]
    next hw => simp [hw]
  | object id =>
    change Value.field h name (.object id) = .ok v ↔
      Assoc.find? name (h.record id).fields = some v
    simp only [Value.field]
    split
    next w hw => simp [hw]
    next hw => simp [hw]
  | _ => simp [Value.field, found?, place?]

/-- A read through a field or an element leaves the heap alone and gives what the step finds. -/
theorem read_eq_ok_iff {s : PathStep} (hs : s.isStored = true) {owner v : Value} {h h' : Heap} :
    s.read owner h = (.ok v, h') ↔ h' = h ∧ s.Suits owner ∧ s.found? owner h = some v := by
  cases s with
  | member target isStatic =>
    cases target with
    | field f =>
      obtain rfl := isStatic_eq hs
      cases hf : f.storage with
      | slot id =>
        have hr : (member (.field f) true).read owner h = (.ok (h.slot id), h) := by
          simp [read, receiver, FieldInfo.get, hf, Action.bind_apply, Action.pure_apply,
            Action.read_apply]
        change (member (.field f) true).read owner h = _ ↔ _
        rw [hr, Action.result_eq_iff]
        simp only [Suits, found?, place?, hf, Heap.content?]
        grind
      | record =>
        cases ho : owner.isNull with
        | true =>
          simp [read, receiver, ho, Suits, Action.bind_apply, Action.throw_apply,
            Action.result_eq_iff]
        | false =>
          have hr : (member (.field f) false).read owner h = (owner.field h f.name, h) := by
            simp [read, receiver, FieldInfo.get, hf, ho, Action.bind_apply, Action.pure_apply,
              Action.read_apply]
          change (member (.field f) false).read owner h = _ ↔ _
          have hfield : owner.field h f.name = .ok v ↔
              (member (.field f) false).found? owner h = some v := field_eq_ok_iff hf
          rw [hr, Action.result_eq_iff, hfield]
          simp only [Suits, ho]
          grind
    | property p => cases hs
    | method m args => cases hs
  | arrayElement index elem =>
    apply readElement_eq_ok_iff
    intro hfits
    cases owner with
    | array id => exact ⟨id, rfl, rfl⟩
    | _ => cases hfits
  | typedElement index elem | untypedElement index =>
    apply readElement_eq_ok_iff
    intro hfits
    cases owner with
    | list id => exact ⟨id, rfl, rfl⟩
    | _ => cases hfits

theorem heap_read {s : PathStep} (hs : s.isStored = true) (owner : Value) (h : Heap) :
    (s.read owner h).2 = h := by
  cases s with
  | member target isStatic =>
    cases target with
    | field f =>
      obtain rfl := isStatic_eq hs
      obtain ⟨name, ty, readOnly, storage⟩ := f
      cases storage with
      | slot id => rfl
      | record => cases owner <;> rfl
    | property p => cases hs
    | method m args => cases hs
  | _ => rfl

theorem read_cases {s : PathStep} (hs : s.isStored = true) (owner : Value) (h : Heap) :
    (∃ e, s.read owner h = (.error e, h)) ∨
      ∃ v, s.read owner h = (.ok v, h) ∧ s.Suits owner ∧ s.found? owner h = some v := by
  have hh := heap_read hs owner h
  rcases hr : s.read owner h with ⟨e | v, h'⟩
  · rw [hr] at hh
    obtain rfl : h' = h := hh
    exact Or.inl ⟨e, rfl⟩
  · obtain ⟨rfl, hsuits, hfound⟩ := (read_eq_ok_iff hs).mp hr
    exact Or.inr ⟨v, rfl, hsuits, hfound⟩

/-! ### Writing -/

/-- What a write through a step to a field or an element does: it stores the value in the step's
place, or it gives a copy of the struct that owns the field. -/
inductive Writes (s : PathStep) (owner v : Value) (h : Heap) : Value → Heap → Prop where
  | stored (q : Place) (r : Value) (hq : s.place? owner = some q)
      (hholds : owner.Live h → s.SlotExists h → h.Holds q) : Writes s owner v h r (h.store v q)
  | copied (ty : Ty) (fields : Fields) (hq : s.place? owner = none) (hs : s.Suits owner)
      (ho : owner = .struct ty fields) :
      Writes s owner v h (.struct ty (Assoc.put s.text v fields)) h

theorem withElement_apply (owner v : Value) (index : Nat) (h : Heap) :
    owner.withElement index v h =
      match owner.sequenceId h with
      | .ok id =>
        if index < (h.sequence id).items.length then (.ok owner, h.store v (.item id index))
        else (.error (.indexOutOfRange index (h.sequence id).items.length), h)
      | .error e => (.error e, h) := by
  cases hid : owner.sequenceId h with
  | error e => simp only [Value.withElement, Action.bind_apply, Action.read_apply, hid]
  | ok id =>
    simp only [Value.withElement, Action.bind_apply, Action.read_apply, hid]
    split <;> rfl

theorem write_element_cases {s : PathStep} {owner : Value} {index : Nat} (v : Value) (h : Heap)
    (ho : ∀ id, owner.sequenceId h = .ok id → s.place? owner = some (.item id index)) :
    (∃ e, owner.withElement index v h = (.error e, h)) ∨
      ∃ r h', owner.withElement index v h = (.ok r, h') ∧ s.Writes owner v h r h' := by
  rw [withElement_apply]
  cases hid : owner.sequenceId h with
  | error e => exact Or.inl ⟨e, rfl⟩
  | ok id =>
    by_cases hi : index < (h.sequence id).items.length
    · simp only [hi, if_true]
      exact Or.inr ⟨_, _, rfl, .stored _ _ (ho id hid) fun _ _ => hi⟩
    · simp only [hi, if_false]
      exact Or.inl ⟨_, rfl⟩

theorem write_field_cases {f : FieldInfo} {isStatic : Bool}
    (hs : (member (.field f) isStatic).isStored = true) (owner v : Value) (h : Heap) :
    (∃ e, (member (.field f) isStatic).write owner v h = (.error e, h)) ∨
      ∃ r h', (member (.field f) isStatic).write owner v h = (.ok r, h') ∧
        (member (.field f) isStatic).Writes owner v h r h' := by
  obtain rfl := isStatic_eq hs
  obtain ⟨name, ty, readOnly, storage⟩ := f
  cases storage with
  | slot id =>
    -- A slot takes the value whatever the owner is.
    cases readOnly with
    | true => exact Or.inl ⟨_, rfl⟩
    | false => exact Or.inr ⟨.null, h.setSlot id v, rfl, .stored (.slot id) .null rfl
        fun _ hslot => hslot id rfl⟩
  | record =>
    cases readOnly with
    | true =>
      left
      cases owner <;> exact ⟨_, rfl⟩
    | false =>
      -- Only a struct or an object has fields.
      cases owner with
      | struct ty' fields => exact Or.inr ⟨_, h, rfl,
          .copied ty' fields rfl (Or.inr rfl) rfl⟩
      | object id => exact Or.inr ⟨.object id, h.store v (.field id name), rfl,
          .stored (.field id name) (.object id) rfl fun hlive _ => hlive⟩
      | _ => exact Or.inl ⟨_, rfl⟩

/-- A write through a field or an element either fails and leaves the heap alone, or stores. -/
theorem write_cases {s : PathStep} (hs : s.isStored = true) (owner v : Value) (h : Heap) :
    (∃ e, s.write owner v h = (.error e, h)) ∨
      ∃ r h', s.write owner v h = (.ok r, h') ∧ s.Writes owner v h r h' := by
  cases s with
  | member target isStatic =>
    cases target with
    | field f => exact write_field_cases hs owner v h
    | property p => cases hs
    | method m args => cases hs
  | arrayElement index elem | typedElement index elem | untypedElement index =>
    apply write_element_cases
    intro id hid
    cases owner <;> cases hid <;> rfl

theorem writes_of_write {s : PathStep} (hs : s.isStored = true) {owner v r : Value} {h h' : Heap}
    (hw : s.write owner v h = (.ok r, h')) : s.Writes owner v h r h' := by
  rcases write_cases hs owner v h with ⟨e, he⟩ | ⟨r', h₁, hr, hws⟩
  · rw [he] at hw
    cases hw
  · rw [hr] at hw
    cases hw
    exact hws

/-- Where a write through a field succeeds, a read finds the shape that it needs. -/
theorem suits_of_write {s : PathStep} (hs : s.isWritable = true) {owner v r : Value} {h h' : Heap}
    (hw : s.write owner v h = (.ok r, h')) : s.Suits owner := by
  cases s with
  | member target isStatic =>
    cases isStatic with
    | true => exact Or.inl rfl
    | false =>
      cases owner with
      | null => cases hw
      | _ => exact Or.inr rfl
  | _ => cases hs

/-- An owner whose place takes the write is shared, or it is the null of a static step. -/
theorem not_copied_of_place? {s : PathStep} (hs : s.isStored = true) {owner : Value} {q : Place}
    (hown : s.isStatic = true → owner = .null) (hq : s.place? owner = some q) :
    owner.hasValueSemantics = false := by
  cases s with
  | member target isStatic =>
    cases target with
    | field f =>
      obtain rfl := isStatic_eq hs
      obtain ⟨name, ty, readOnly, storage⟩ := f
      cases storage with
      | slot id => rw [hown rfl]; rfl
      | record => cases owner <;> first | rfl | cases hq
    | _ => cases hq
  | _ => cases owner <;> first | rfl | cases hq

/-! ### Reading after a store -/

theorem ne_root_of_place? {s : PathStep} {owner : Value} {q : Place}
    (hq : s.place? owner = some q) : q ≠ .root := by
  rintro rfl
  cases s with
  | member target isStatic =>
    cases target with
    | field f =>
      obtain ⟨name, ty, readOnly, storage⟩ := f
      cases storage <;> cases owner <;> cases hq
    | _ => cases hq
  | _ => cases owner <;> cases hq

theorem place?_struct {s : PathStep} {ty : Ty} {fields : Fields} (fields' : Fields) :
    s.place? (.struct ty fields') = s.place? (.struct ty fields) := by
  cases s with
  | member target isStatic =>
    cases target with
    | field f =>
      obtain ⟨name, ty', readOnly, storage⟩ := f
      cases storage <;> rfl
    | _ => rfl
  | _ => rfl

theorem suits_struct {s : PathStep} {ty : Ty} {fields : Fields} (fields' : Fields)
    (hs : s.Suits (.struct ty fields)) : s.Suits (.struct ty fields') := by
  cases s with
  | member target isStatic => exact hs
  | _ => cases hs

theorem found?_store_of_ne {s : PathStep} {owner : Value} {h : Heap} {q : Place} (v : Value)
    (hne : s.place? owner ≠ some q) : s.found? owner (h.store v q) = s.found? owner h := by
  cases hq' : s.place? owner with
  | none =>
    simp only [found?, hq']
    cases owner <;> rfl
  | some q' =>
    simp only [found?, hq']
    apply Heap.content?_store_of_ne
    rintro rfl
    exact hne hq'

theorem found?_store_self {s : PathStep} {owner : Value} {h : Heap} {q : Place} (v : Value)
    (hq : s.place? owner = some q) (hh : h.Holds q) :
    s.found? owner (h.store v q) = some v := by
  simp only [found?, hq]
  exact Heap.content?_store_self v hh

theorem live_found? {s : PathStep} {owner v : Value} {h : Heap} (hc : h.Closed)
    (ho : owner.Live h) (hv : s.found? owner h = some v) : v.Live h := by
  unfold found? at hv
  split at hv
  next => exact hc.live_content hv
  next => exact Value.live_of_find? ho hv
  next => cases hv

end Introspect.PathStep

import Introspect.Proofs.Memory
import Introspect.Proofs.Ty.Hierarchy

/-!
Well-typed heaps. A value conforms to a type that its own type converts to, and null conforms to
all but value types. A heap is well typed if each field conforms to every type that a supertype of
its owner declares for it, and each item to the type of the elements. A store of a conforming value
keeps it so.
-/

namespace Introspect

open Ty (Same)

/-- The field of an instantiation of its owner. -/
def FieldInfo.instantiate (owner : String) (args : List Ty) (f : FieldInfo) : FieldInfo :=
  { f with ty := f.ty.instantiate owner args }

namespace TypeSystem

variable (ts : TypeSystem)

/-- The record fields that one type declares itself, their types instantiated. -/
def recordFieldsOf : Ty → List FieldInfo
  | .named n args =>
    match ts.find? n with
    | some d => d.recordFields.map (FieldInfo.instantiate d.name args)
    | none => []
  | _ => []

mutual

/-- Whether every definition that a type names has as many parameters as there are arguments. -/
def atArity : Ty → Bool
  | .named n args => (ts.find? n).all (·.params.length == args.length) && atArityAll args
  | .array elem => atArity elem
  | .param _ => true

def atArityAll : List Ty → Bool
  | [] => true
  | t :: rest => atArity t && atArityAll rest

end

/-- Whether all supertypes of a closed type that declare a record field of some name, the type
itself among them, declare it with one type. -/
def FieldsAgree : Prop :=
  ∀ t : Ty, t.isOpen = false → ts.atArity t = true →
    ∀ s ∈ ts.supertypes t, ∀ s' ∈ ts.supertypes t,
      ∀ f ∈ ts.recordFieldsOf s, ∀ f' ∈ ts.recordFieldsOf s', f.name = f'.name → f.ty == f'.ty

/-- Null conforms to all but value types, and any other value to what its type converts to. -/
def Conforms (h : Heap) (t : Ty) (v : Value) : Prop :=
  if v.isNull then ts.isValueType t = false else ts.isAssignable t (v.typeOf h) = true

/-- Whether the fields of a record have the types that its own type and all supertypes of it
declare. A field may be missing, and others may be there. -/
structure RecordTyped (h : Heap) (t : Ty) (fields : Fields) : Prop where
  closed : t.isOpen = false
  atArity : ts.atArity t = true
  /-- The walk to the supertypes ends, so that there is such a thing as all of them. -/
  ends : (ts.supertypes? t).isSome = true
  conforms : ∀ s ∈ ts.supertypes t, ∀ f ∈ ts.recordFieldsOf s, ∀ v,
    Assoc.find? f.name fields = some v → ts.Conforms h f.ty v

end TypeSystem

namespace Value

mutual

/-- Whether every struct that occurs in a value is well typed. What an address refers to is left to
the heap. -/
def WellTyped (ts : TypeSystem) (h : Heap) : Value → Prop
  | struct ty fields => ts.RecordTyped h ty fields ∧ FieldsWellTyped ts h fields
  | _ => True

def FieldsWellTyped (ts : TypeSystem) (h : Heap) : List (String × Value) → Prop
  | [] => True
  | (_, v) :: rest => WellTyped ts h v ∧ FieldsWellTyped ts h rest

end

/-- Whether a well-typed value conforms to a type. -/
structure HasTy (ts : TypeSystem) (h : Heap) (t : Ty) (v : Value) : Prop where
  wellTyped : v.WellTyped ts h
  conforms : ts.Conforms h t v

end Value

/-- A heap in which every record, every item and every static slot is well typed. -/
structure Heap.WellTyped (ts : TypeSystem) (h : Heap) : Prop where
  records : ∀ id < h.records.size, ts.RecordTyped h (h.record id).ty (h.record id).fields ∧
    Value.FieldsWellTyped ts h (h.record id).fields
  items : ∀ id, ∀ v ∈ (h.sequence id).items,
    v.HasTy ts h ((h.sequence id).elem.getD .object)
  slots : ∀ id, (h.slot id).WellTyped ts h

variable {ts : TypeSystem} {h : Heap} {t u : Ty} {v w : Value} {fields : Fields}

/-! ### Conforming values -/

theorem TypeSystem.conforms_congr (htu : t.Same u) : ts.Conforms h t v ↔ ts.Conforms h u v := by
  unfold Conforms
  rw [ts.isValueType_congr htu, ts.isAssignable_congr htu BEq.rfl]

theorem TypeSystem.conforms_iff_isAssignable (hv : v.isNull = false) :
    ts.Conforms h t v ↔ ts.isAssignable t (v.typeOf h) = true := by
  rw [Conforms, hv, if_neg Bool.false_ne_true]

theorem Value.HasTy.isAssignable (hv : v.HasTy ts h t) (hn : v.isNull = false) :
    ts.isAssignable t (v.typeOf h) = true :=
  (TypeSystem.conforms_iff_isAssignable hn).mp hv.conforms

/-- Whether two values are of one type while the program runs, and neither is null. -/
structure Value.SameTy (h : Heap) (v w : Value) : Prop where
  left : v.isNull = false
  right : w.isNull = false
  typeOf : w.typeOf h = v.typeOf h

/-- Whatever has taken a value takes every other of its type. -/
theorem Value.HasTy.of_sameTy (hv : v.HasTy ts h t) (hvw : v.SameTy h w)
    (hw : w.WellTyped ts h) : w.HasTy ts h t := by
  refine ⟨hw, (TypeSystem.conforms_iff_isAssignable hvw.right).mpr ?_⟩
  rw [hvw.typeOf]
  exact hv.isAssignable hvw.left

theorem Value.HasTy.congr (htu : t.Same u) (hv : v.HasTy ts h t) : v.HasTy ts h u :=
  ⟨hv.wellTyped, (TypeSystem.conforms_congr htu).mp hv.conforms⟩

/-- Everything well typed conforms to `object`. -/
theorem Heap.WellTyped.conforms_object (hts : ts.HasBuiltins) (hh : h.WellTyped ts)
    (hv : v.WellTyped ts h) : ts.Conforms h .object v := by
  unfold TypeSystem.Conforms
  split
  · simp only [TypeSystem.isValueType, TypeSystem.kind?, Ty.object, Ty.plain, hts.find?_object]
    rfl
  · apply TypeSystem.isAssignable_object
    intro hvoid
    cases v with
    | struct ty fields => exact hv.1.ends
    | object id =>
      rcases Nat.lt_or_ge id h.records.size with hid | hid
      · exact (hh.records id hid).1.ends
      · simp only [Value.typeOf, Heap.record, Array.getElem?_eq_none hid] at hvoid
        cases hvoid
    | list id =>
      simp only [Value.typeOf] at hvoid
      split at hvoid <;> cases hvoid
    | _ => cases hvoid

/-! ### Fields and items -/

theorem TypeDef.mem_recordFields {d : TypeDef} {f : FieldInfo} :
    f ∈ d.recordFields ↔ .field f ∈ d.members ∧ f.isStatic = false := by
  simp only [recordFields, List.mem_filterMap, Option.filter_eq_some_iff, Bool.not_eq_true']
  constructor
  · intro ⟨m, hm, hfield, hstatic⟩
    cases m with
    | field g =>
      cases hfield
      exact ⟨hm, hstatic⟩
    | _ => cases hfield
  · intro ⟨hm, hstatic⟩
    exact ⟨_, hm, rfl, hstatic⟩

namespace TypeSystem

theorem mem_recordFieldsOf {f : FieldInfo} :
    f ∈ ts.recordFieldsOf t ↔ ∃ n args d, t = .named n args ∧ ts.find? n = some d ∧
      ∃ declared ∈ d.recordFields, f = declared.instantiate d.name args := by
  cases t with
  | named n args =>
    cases hd : ts.find? n with
    | none => simp [recordFieldsOf, hd]
    | some d =>
      simp only [recordFieldsOf, hd, List.mem_map]
      constructor
      · intro ⟨declared, hdeclared, hf⟩
        exact ⟨n, args, d, rfl, hd, declared, hdeclared, hf.symm⟩
      · intro ⟨_, _, d', hnamed, hd', declared, hdeclared, hf⟩
        cases hnamed
        rw [hd] at hd'
        cases hd'
        exact ⟨declared, hdeclared, hf.symm⟩
  | _ => simp [recordFieldsOf]

theorem recordFieldsOf_congr (htu : t.Same u) {f : FieldInfo} (hf : f ∈ ts.recordFieldsOf t) :
    ∃ g ∈ ts.recordFieldsOf u, g.name = f.name ∧ f.ty.Same g.ty := by
  obtain ⟨n, args, d, rfl, hd, declared, hdeclared, rfl⟩ := mem_recordFieldsOf.mp hf
  obtain ⟨_, _, bs, hnamed, rfl, hargs⟩ | ⟨_, _, hnamed, -⟩ | ⟨_, _, hnamed, -⟩ :=
    Ty.same_cases htu
  · cases hnamed
    exact ⟨_, mem_recordFieldsOf.mpr ⟨n, bs, d, rfl, hd, declared, hdeclared, rfl⟩, rfl,
      Ty.instantiate_congr d.name hargs BEq.rfl⟩
  · cases hnamed
  · cases hnamed

/-- The fields of a registry agree if those of one name are declared with one closed type. -/
theorem fieldsAgree_of_definitions {r : Registry} (limit : Nat)
    (h : ∀ d ∈ r.definitions, ∀ f ∈ d.recordFields, ∀ d' ∈ r.definitions, ∀ f' ∈ d'.recordFields,
      f.name = f'.name → f.ty == f'.ty ∧ f.ty.isOpen = false) : (r.types limit).FieldsAgree := by
  intro t _ _ s _ s' _ f hf f' hf' hname
  obtain ⟨_, args, d, rfl, hd, declared, hdeclared, rfl⟩ := mem_recordFieldsOf.mp hf
  obtain ⟨_, args', d', rfl, hd', declared', hdeclared', rfl⟩ := mem_recordFieldsOf.mp hf'
  obtain ⟨hty, hclosed⟩ := h d (List.mem_of_find?_eq_some hd) declared hdeclared d'
    (List.mem_of_find?_eq_some hd') declared' hdeclared' hname
  have hclosed' : declared'.ty.isOpen = false := (Ty.isOpen_congr hty).symm.trans hclosed
  change declared.ty.instantiate d.name args == declared'.ty.instantiate d'.name args'
  rw [Ty.instantiate, Ty.instantiate, Ty.subst_of_closed hclosed, Ty.subst_of_closed hclosed']
  exact hty

/-- A field that takes a value of its type leaves all fields as their declarations say. -/
theorem RecordTyped.put (hagree : ts.FieldsAgree) (hfields : ts.RecordTyped h t fields) {s : Ty}
    (hs : s ∈ ts.supertypes t) {f : FieldInfo} (hf : f ∈ ts.recordFieldsOf s)
    (hv : ts.Conforms h f.ty v) : ts.RecordTyped h t (Assoc.put f.name v fields) := by
  refine ⟨hfields.closed, hfields.atArity, hfields.ends, fun s' hs' f' hf' w hw => ?_⟩
  rw [Assoc.find?_put] at hw
  split at hw
  next hname =>
    cases hw
    have hty := hagree t hfields.closed hfields.atArity s hs s' hs' f hf f' hf' (eq_of_beq hname)
    exact (conforms_congr hty).mp hv
  next => exact hfields.conforms s' hs' f' hf' w hw

end TypeSystem

namespace Value

theorem fieldsWellTyped_iff :
    FieldsWellTyped ts h fields ↔ ∀ e ∈ fields, e.2.WellTyped ts h := by
  induction fields with
  | nil => simp [FieldsWellTyped]
  | cons e rest ih => rw [List.forall_mem_cons, ← ih, FieldsWellTyped]

theorem wellTyped_of_find? {name : String} (hf : FieldsWellTyped ts h fields)
    (hv : Assoc.find? name fields = some v) : v.WellTyped ts h := by
  obtain ⟨e, he, rfl⟩ := Assoc.exists_mem_of_find? hv
  exact fieldsWellTyped_iff.mp hf e he

theorem fieldsWellTyped_put {name : String} (hf : FieldsWellTyped ts h fields)
    (hv : v.WellTyped ts h) : FieldsWellTyped ts h (Assoc.put name v fields) :=
  fieldsWellTyped_iff.mpr (Assoc.forall_mem_put (fieldsWellTyped_iff.mp hf) hv)

end Value

/-! ### Stores -/

/-- A store changes no type of any value. -/
theorem Value.typeOf_store (h : Heap) (w : Value) (q : Place) (v : Value) :
    v.typeOf (h.store w q) = v.typeOf h := by
  have hrecord (id : RecordId) : ((h.store w q).record id).ty = (h.record id).ty := by
    cases q with
    | field id' name =>
      simp only [Heap.store, Heap.record_setRecord]
      split
      next hid => rw [hid.1]
      next => rfl
    | _ => rfl
  have hsequence (id : SequenceId) :
      ((h.store w q).sequence id).elem = (h.sequence id).elem := by
    cases q with
    | item id' index =>
      simp only [Heap.store, Heap.sequence_setSequence]
      split
      next hid => rw [hid.1]
      next => rfl
    | _ => rfl
  cases v with
  | object id => exact hrecord id
  | array id => simp only [Value.typeOf, hsequence]
  | list id => simp only [Value.typeOf, hsequence]
  | _ => rfl

theorem TypeSystem.conforms_store {q : Place} :
    ts.Conforms (h.store w q) t v ↔ ts.Conforms h t v := by
  unfold Conforms
  rw [Value.typeOf_store]

theorem TypeSystem.RecordTyped.store {q : Place} (hf : ts.RecordTyped h t fields) :
    ts.RecordTyped (h.store w q) t fields :=
  ⟨hf.closed, hf.atArity, hf.ends,
    fun s hs f hfs v hv => conforms_store.mpr (hf.conforms s hs f hfs v hv)⟩

namespace Value

mutual

theorem WellTyped.store {q : Place} :
    (v : Value) → v.WellTyped ts h → v.WellTyped ts (h.store w q)
  | struct _ fields, hv => ⟨hv.1.store, .store fields hv.2⟩
  | null, _ | bool _, _ | int _, _ | float _, _ | string _, _ => trivial
  | object _, _ | array _, _ | list _, _ => trivial

theorem FieldsWellTyped.store {q : Place} : (fields : List (String × Value)) →
    FieldsWellTyped ts h fields → FieldsWellTyped ts (h.store w q) fields
  | [], _ => trivial
  | (_, v) :: rest, hf => ⟨.store v hf.1, .store rest hf.2⟩

end

theorem HasTy.store {q : Place} (hv : v.HasTy ts h t) : v.HasTy ts (h.store w q) t :=
  ⟨WellTyped.store v hv.wellTyped, TypeSystem.conforms_store.mpr hv.conforms⟩

end Value

namespace Heap.WellTyped

/-- A store in a record keeps a heap well typed if the fields stay as their declarations say. -/
theorem store_field (hh : h.WellTyped ts) {id : RecordId} {name : String} (hv : v.WellTyped ts h)
    (hput : id < h.records.size →
      ts.RecordTyped h (h.record id).ty (Assoc.put name v (h.record id).fields)) :
    (h.store v (.field id name)).WellTyped ts := by
  refine ⟨fun id' hid' => ?_, fun id' w hw => (hh.items id' w hw).store,
    fun id' => (hh.slots id').store _⟩
  rw [(h.sizes_store v _).1] at hid'
  have hrecord : (h.store v (.field id name)).record id' =
      if id = id' ∧ id < h.records.size then
        { h.record id with fields := Assoc.put name v (h.record id).fields }
      else h.record id' := record_setRecord ..
  obtain ⟨hfields, hvalues⟩ := hh.records id' hid'
  rw [hrecord]
  split
  next hid =>
    obtain ⟨rfl, hid⟩ := hid
    exact ⟨(hput hid).store, .store _ (Value.fieldsWellTyped_put hvalues hv)⟩
  next => exact ⟨hfields.store, .store _ hvalues⟩

/-- A store in a sequence keeps a heap well typed if the value is one of the elements' type. -/
theorem store_item (hh : h.WellTyped ts) {id : SequenceId} {index : Nat}
    (hv : v.HasTy ts h ((h.sequence id).elem.getD .object)) :
    (h.store v (.item id index)).WellTyped ts := by
  refine ⟨fun id' hid' => ?_, fun id' w hw => ?_, fun id' => (hh.slots id').store _⟩
  · rw [(h.sizes_store v _).1] at hid'
    obtain ⟨hfields, hvalues⟩ := hh.records id' hid'
    exact ⟨hfields.store, .store _ hvalues⟩
  · have hsequence : (h.store v (.item id index)).sequence id' =
        if id = id' ∧ id < h.sequences.size then
          { h.sequence id with items := (h.sequence id).items.set index v }
        else h.sequence id' := sequence_setSequence ..
    rw [hsequence] at hw ⊢
    split at hw
    next hid =>
      obtain ⟨rfl, hid⟩ := hid
      rw [if_pos ⟨rfl, hid⟩]
      rcases List.mem_or_eq_of_mem_set hw with hw | rfl
      · exact (hh.items id w hw).store
      · exact hv.store
    next hid =>
      rw [if_neg hid]
      exact (hh.items id' w hw).store

end Heap.WellTyped

end Introspect

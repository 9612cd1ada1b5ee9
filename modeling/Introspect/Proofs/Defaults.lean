import Introspect.Instance
import Introspect.Proofs.Ty.Containment
import Mathlib.Algebra.Order.BigOperators.Group.List
import Mathlib.Algebra.Order.Group.Nat

/-!
Fresh instances. The default of a slot has no address in it, so it is made without the heap. Where
base chains end and the structs inside structs do too, every closed type has a fresh instance, in
which each field has the default of the type that its most derived declaration gives it.
-/

namespace Introspect

open Relation (ReflTransGen)

namespace TypeSystem

variable {ts : TypeSystem} {t u s : Ty} {f : FieldInfo} {fields : Fields}

/-! ### The fields of an instance -/

theorem instanceFields_eq (ts : TypeSystem) (t : Ty) :
    ts.instanceFields t = (ts.baseChain t).flatMap ts.recordFieldsOf := by
  refine List.flatMap_congr fun s _ => ?_
  cases s <;> rfl

theorem baseChain_of_base?_eq_none (h : ts.base? t = none) : ts.baseChain t = [t] := by
  unfold baseChain baseChain?
  cases ts.limit with
  | zero => rfl
  | succ limit => simp only [climb?, h, Option.getD_some]

/-- What holds of a type and passes on to bases holds of its whole base chain. -/
theorem forall_mem_baseChain {bound : Ty → Prop}
    (hbase : ∀ s b, bound s → ts.base? s = some b → bound b) (ht : bound t) :
    ∀ s ∈ ts.baseChain t, bound s := by
  have hself : ∀ s ∈ [t], bound s := List.forall_mem_singleton.mpr ht
  unfold baseChain
  cases hfound : ts.baseChain? t with
  | none => exact hself
  | some found => exact mem_of_mem_climb? hbase hfound ht hself

/-- A limit decides how far a base chain goes, and what is on it is closed in any case. -/
theorem Ground.instanceField (hts : ts.WellFielded) (ht : ts.Ground t) {limit : Nat}
    (hf : f ∈ (ts.withLimit limit).instanceFields t) : ts.Ground f.ty := by
  rw [instanceFields_eq] at hf
  obtain ⟨s, hs, hf⟩ := List.mem_flatMap.mp hf
  have hbase (s b : Ty) (hs : ts.Ground s) (hb : (ts.withLimit limit).base? s = some b) :
      ts.Ground b := hs.base hts (by rw [← hb]; cases s <;> rfl)
  exact (forall_mem_baseChain hbase ht s hs).field hts hf

/-! ### Defaults without the heap -/

/-- Enters a default for each field whose name has none yet. -/
def fill (slot : Ty → Option Value) : List FieldInfo → Fields → Option Fields
  | [], fields => some fields
  | f :: rest, fields =>
    if (Assoc.find? f.name fields).isSome then fill slot rest fields
    else (slot f.ty).bind fun v => fill slot rest (Assoc.put f.name v fields)

/-- The default of a slot, for given fields of the structs. -/
def slotDefault (ts : TypeSystem) (structFields : Ty → Option Fields) (t : Ty) : Option Value :=
  match primitiveDefault? t with
  | some v => some v
  | none =>
    if ts.isValueType t && !t.isOpen then (structFields t).map (Value.struct t) else some .null

/-- The fields of a fresh instance. -/
def freshFields? (ts : TypeSystem) : (fuel : Nat) → Ty → Option Fields
  | 0, _ => none
  | fuel + 1, t => fill (ts.slotDefault (freshFields? ts fuel)) (ts.instanceFields t) []

/-- The default of a slot under the limit. -/
def slotDefault? (ts : TypeSystem) (t : Ty) : Option Value :=
  ts.slotDefault (ts.freshFields? ts.limit) t

/-- A fresh struct, or an object with a new record. -/
def fresh (ts : TypeSystem) (t : Ty) (fields : Fields) (h : Heap) : Value × Heap :=
  if ts.isValueType t then (.struct t fields, h)
  else
    let (id, h) := h.addRecord ⟨t, fields⟩
    (.object id, h)

/-- Whether instances of a type have fields, as those of the list types do not. -/
def IsRecordType (t : Ty) : Prop :=
  t.definitionName? ≠ some "List" ∧ t.definitionName? ≠ some "ArrayList"

theorem HasBuiltins.isRecordType (hts : ts.HasBuiltins) (ht : ts.isValueType t = true) :
    IsRecordType t := by
  have hclass {name : String} {d : TypeDef} (hd : Registry.builtin.find? name = some d)
      (hkind : d.kind = .classType) : t.definitionName? ≠ some name := by
    intro hname
    cases t with
    | named n args =>
      cases hname
      rw [isValueType, kind?, hts _ _ hd, Option.map_some, hkind] at ht
      cases ht
    | _ => cases hname
  exact ⟨hclass (d := Builtin.list) rfl rfl, hclass (d := Builtin.arrayList) rfl rfl⟩

/-- One turn of the making of an instance, which enters a field unless its name is taken. -/
def enterField (ts : TypeSystem) (make? : Ty → StateT Heap Option Value) (fields : Fields)
    (f : FieldInfo) : StateT Heap Option Fields := do
  if (Assoc.find? f.name fields).isSome then return fields
  match primitiveDefault? f.ty with
  | some v => return Assoc.put f.name v fields
  | none =>
    if ts.isValueType f.ty && !f.ty.isOpen then
      let v ← make? f.ty
      return Assoc.put f.name v fields
    else return Assoc.put f.name .null fields

/-- What follows a computation that leaves the heap alone. -/
theorem bind_apply_of_eq_map {α β : Type} {x : StateT Heap Option α} {o : Option α} {h : Heap}
    (hx : x h = o.map fun a => (a, h)) (f : α → StateT Heap Option β) :
    (x >>= f) h = o.bind fun a => f a h := by
  change (x h).bind _ = _
  rw [hx]
  cases o <;> rfl

section

variable {make? : Ty → StateT Heap Option Value} {structFields : Ty → Option Fields}
  (hmake : ∀ u h, ts.isValueType u = true →
    make? u h = ((structFields u).map (Value.struct u)).map fun v => (v, h))
include hmake

theorem enterField_apply (fields : Fields) (f : FieldInfo) (h : Heap) :
    ts.enterField make? fields f h =
      (fill (ts.slotDefault structFields) [f] fields).map fun fields => (fields, h) := by
  simp only [enterField, fill, slotDefault]
  split
  · rfl
  · cases primitiveDefault? f.ty with
    | some v => rfl
    | none =>
      dsimp only
      split
      next hstruct =>
        rw [bind_apply_of_eq_map (hmake f.ty h (Bool.and_eq_true_iff.mp hstruct).1)]
        cases structFields f.ty <;> rfl
      next => rfl

theorem foldlM_enterField (declared : List FieldInfo) (fields : Fields) (h : Heap) :
    declared.foldlM (ts.enterField make?) fields h =
      (fill (ts.slotDefault structFields) declared fields).map fun fields => (fields, h) := by
  induction declared generalizing fields h with
  | nil => rfl
  | cons f rest ih =>
    rw [List.foldlM_cons, bind_apply_of_eq_map (enterField_apply hmake fields f h)]
    simp only [ih, fill]
    split
    · rfl
    · cases ts.slotDefault structFields f.ty <;> rfl

end

/-- A new instance is made of its fresh fields, and the heap has a part in it for an object only. -/
theorem make?_eq (hts : ts.HasBuiltins) (fuel : Nat) (ht : IsRecordType t) (h : Heap) :
    ts.make? fuel t h = (ts.freshFields? fuel t).map fun fields => ts.fresh t fields h := by
  induction fuel generalizing t h with
  | zero => rfl
  | succ fuel ih =>
    have hlist : ¬(t.definitionName? == some "List") = true := fun he => ht.1 (eq_of_beq he)
    have harray : ¬(t.definitionName? == some "ArrayList") = true := fun he => ht.2 (eq_of_beq he)
    have hmake (u : Ty) (h : Heap) (hu : ts.isValueType u = true) :
        ts.make? fuel u h =
          ((ts.freshFields? fuel u).map (Value.struct u)).map fun v => (v, h) := by
      rw [ih (hts.isRecordType hu), Option.map_map]
      simp only [fresh, if_pos hu, Function.comp_def]
    simp only [make?, if_neg hlist, if_neg harray]
    change ((ts.instanceFields t).foldlM (ts.enterField (ts.make? fuel)) [] >>= _) h = _
    rw [bind_apply_of_eq_map (foldlM_enterField hmake (ts.instanceFields t) [] h), freshFields?,
      Option.map_eq_bind]
    congr 1
    funext fields
    simp only [fresh, Function.comp_apply]
    split <;> rfl

/-- A default that is made leaves the heap as it is. -/
theorem defaultValue_eq (hts : ts.HasBuiltins) (t : Ty) (h : Heap) :
    ts.defaultValue t h = (.ok ((ts.slotDefault? t).getD .null), h) := by
  simp only [defaultValue, slotDefault?, slotDefault]
  cases primitiveDefault? t with
  | some v => rfl
  | none =>
    dsimp only
    split
    next hstruct =>
      have hvalue := (Bool.and_eq_true_iff.mp hstruct).1
      simp only [make, make?_eq hts ts.limit (hts.isRecordType hvalue) h, fresh, if_pos hvalue]
      cases ts.freshFields? ts.limit t <;> rfl
    next => rfl

theorem instantiate_eq (hts : ts.HasBuiltins) {n : String} {args : List Ty}
    (hn : (ts.find? n).isSome = true) (ht : IsRecordType (.named n args))
    (hclosed : (Ty.named n args).isOpen = false)
    (hfields : ts.freshFields? ts.limit (.named n args) = some fields) (h : Heap) :
    ts.instantiate (.named n args) h =
      (.ok (ts.fresh (.named n args) fields h).1, (ts.fresh (.named n args) fields h).2) := by
  have hfound : ¬(ts.find? n).isNone = true := by
    rw [Option.isNone_iff_eq_none]
    exact Option.isSome_iff_ne_none.mp hn
  simp only [instantiate, if_neg hfound, hclosed, Bool.false_eq_true, if_false, make,
    make?_eq hts ts.limit ht h, hfields, Option.map_some]

/-! ### What is found in fresh fields -/

section

variable {slot slot' : Ty → Option Value} {declared : List FieldInfo} {entered : Fields}
  {name : String} {v : Value}

theorem fill_mono (hslot : ∀ f ∈ declared, ∀ v, slot f.ty = some v → slot' f.ty = some v)
    (hfields : fill slot declared entered = some fields) :
    fill slot' declared entered = some fields := by
  induction declared generalizing entered with
  | nil => exact hfields
  | cons f rest ih =>
    obtain ⟨hf, hrest⟩ := List.forall_mem_cons.mp hslot
    rw [fill] at hfields ⊢
    split
    next htaken =>
      rw [if_pos htaken] at hfields
      exact ih hrest hfields
    next hfree =>
      rw [if_neg hfree] at hfields
      obtain ⟨v, hv, hfields⟩ := Option.bind_eq_some_iff.mp hfields
      exact Option.bind_eq_some_iff.mpr ⟨v, hf v hv, ih hrest hfields⟩

theorem isSome_fill (hslot : ∀ f ∈ declared, (slot f.ty).isSome = true) (entered : Fields) :
    (fill slot declared entered).isSome = true := by
  induction declared generalizing entered with
  | nil => rfl
  | cons f rest ih =>
    obtain ⟨hf, hrest⟩ := List.forall_mem_cons.mp hslot
    rw [fill]
    split
    · exact ih hrest _
    · obtain ⟨v, hv⟩ := Option.isSome_iff_exists.mp hf
      rw [hv, Option.bind_some]
      exact ih hrest _

/-- A field that is entered keeps its value. -/
theorem find?_fill_of_entered (hfields : fill slot declared entered = some fields)
    (hv : Assoc.find? name entered = some v) : Assoc.find? name fields = some v := by
  induction declared generalizing entered with
  | nil =>
    cases hfields
    exact hv
  | cons f rest ih =>
    rw [fill] at hfields
    split at hfields
    · exact ih hfields hv
    next hfree =>
      obtain ⟨w, hw, hfields⟩ := Option.bind_eq_some_iff.mp hfields
      refine ih hfields ?_
      rw [Assoc.find?_put, if_neg fun he => hfree ?_]
      · exact hv
      · rw [eq_of_beq he, hv, Option.isSome_some]

/-- Of the fields with one name the first one counts. -/
theorem find?_fill (hfields : fill slot declared entered = some fields)
    (hname : Assoc.find? name entered = none)
    (hf : declared.find? (fun f => f.name == name) = some f) :
    ∃ v, slot f.ty = some v ∧ Assoc.find? name fields = some v := by
  induction declared generalizing entered with
  | nil => cases hf
  | cons g rest ih =>
    rw [List.find?_cons] at hf
    rw [fill] at hfields
    split at hf
    next hg =>
      cases hf
      rw [eq_of_beq hg, hname, if_neg (by simp)] at hfields
      obtain ⟨v, hv, hfields⟩ := Option.bind_eq_some_iff.mp hfields
      refine ⟨v, hv, find?_fill_of_entered hfields ?_⟩
      rw [Assoc.find?_put, if_pos BEq.rfl]
    next hg =>
      split at hfields
      · exact ih hfields hname hf
      · obtain ⟨w, hw, hfields⟩ := Option.bind_eq_some_iff.mp hfields
        refine ih hfields ?_ hf
        rw [Assoc.find?_put, hg, if_neg Bool.false_ne_true]
        exact hname

theorem slotDefault_mono {structFields structFields' : Ty → Option Fields}
    (h : ∀ fields, structFields t = some fields → structFields' t = some fields)
    (hv : ts.slotDefault structFields t = some v) : ts.slotDefault structFields' t = some v := by
  unfold slotDefault at hv ⊢
  split
  next w hw => rwa [hw] at hv
  next hw =>
    rw [hw] at hv
    dsimp only at hv
    split
    next hstruct =>
      rw [if_pos hstruct] at hv
      obtain ⟨fields, hfields, hv⟩ := Option.map_eq_some_iff.mp hv
      exact Option.map_eq_some_iff.mpr ⟨fields, h fields hfields, hv⟩
    next hnot => rwa [if_neg hnot] at hv

end

/-- Fields that are made stay the same under more fuel. -/
theorem freshFields?_mono {n m : Nat} (hnm : n ≤ m) (hfields : ts.freshFields? n t = some fields) :
    ts.freshFields? m t = some fields := by
  induction n generalizing m t fields with
  | zero => cases hfields
  | succ n ih =>
    obtain ⟨m, rfl⟩ : ∃ k, m = k + 1 := ⟨m - 1, by omega⟩
    exact fill_mono (fun f _ v => slotDefault_mono fun fields => ih (by omega)) hfields

/-- In a fresh instance each field has the default of the type that the first declaration gives. -/
theorem find?_freshFields? {name : String} (hfields : ts.freshFields? ts.limit t = some fields)
    (hf : (ts.instanceFields t).find? (fun f => f.name == name) = some f) :
    ∃ v, ts.slotDefault? f.ty = some v ∧ Assoc.find? name fields = some v := by
  cases hlimit : ts.limit with
  | zero =>
    rw [hlimit] at hfields
    cases hfields
  | succ n =>
    rw [hlimit] at hfields
    obtain ⟨v, hv, hfound⟩ := find?_fill hfields rfl hf
    refine ⟨v, slotDefault_mono (fun inner hinner => ?_) hv, hfound⟩
    exact freshFields?_mono (by omega) hinner

theorem isSome_slotDefault {structFields : Ty → Option Fields}
    (h : ts.isValueType t = true → (structFields t).isSome = true) :
    (ts.slotDefault structFields t).isSome = true := by
  unfold slotDefault
  split
  · rfl
  · split
    next hstruct =>
      rw [Option.isSome_map]
      exact h (Bool.and_eq_true_iff.mp hstruct).1
    · rfl

/-- The default of a closed struct type other than the primitives has its fresh fields. -/
theorem slotDefault?_eq_struct {v : Value} (hprimitive : primitiveDefault? t = none)
    (hstruct : ts.isValueType t = true) (hclosed : t.isOpen = false)
    (hv : ts.slotDefault? t = some v) :
    ∃ fields, ts.freshFields? ts.limit t = some fields ∧ v = .struct t fields := by
  simp only [slotDefault?, slotDefault, hprimitive, hstruct, hclosed, Bool.not_false, Bool.and_true,
    if_true] at hv
  obtain ⟨fields, hfields, rfl⟩ := Option.map_eq_some_iff.mp hv
  exact ⟨fields, hfields, rfl⟩

/-! ### Fresh instances of all types -/

theorem isValueType_withLimit (ts : TypeSystem) (limit : Nat) (t : Ty) :
    (ts.withLimit limit).isValueType t = ts.isValueType t := by
  cases t <;> rfl

theorem exists_bound_of_forall_mem {α : Type} {P : α → Nat → Prop}
    (hmono : ∀ a n m, n ≤ m → P a n → P a m) {items : List α} (h : ∀ a ∈ items, ∃ n, P a n) :
    ∃ n, ∀ a ∈ items, P a n := by
  choose! bound hbound using h
  refine ⟨(items.map bound).sum, fun a ha => hmono a _ _ ?_ (hbound a ha)⟩
  exact List.le_sum_of_mem (List.mem_map_of_mem ha)

/-- Where the recursions end, one bound is enough for the fresh fields of a type. -/
theorem Finitary.exists_freshFields? (hts : ts.Finitary) (ht : ts.Ground t) :
    ∃ bound, ∀ limit fuel, bound ≤ limit → bound ≤ fuel →
      ((ts.withLimit limit).freshFields? fuel t).isSome = true := by
  induction hts.structsEnd t ht with
  | intro t _ ih =>
    obtain ⟨k, chain, hchain⟩ := hts.basesEnd t ht
    have hground : ∀ s ∈ chain, ts.Ground s :=
      mem_of_mem_climb? (fun _ _ => Ground.base hts.wellFielded) hchain ht
        (List.forall_mem_singleton.mpr ht)
    have hreach : ∀ s ∈ chain, ReflTransGen (fun a b => ts.base? a = some b) t s :=
      mem_of_mem_climb? (fun _ _ => ReflTransGen.tail) hchain .refl
        (List.forall_mem_singleton.mpr .refl)
    -- Each field asks for structs that are held here, of which the induction has bounds.
    have hslot (f : FieldInfo) (hf : f ∈ chain.flatMap ts.recordFieldsOf) :
        ∃ bound, ∀ limit fuel, bound ≤ limit → bound ≤ fuel → ((ts.withLimit limit).slotDefault
          ((ts.withLimit limit).freshFields? fuel) f.ty).isSome = true := by
      obtain ⟨s, hs, hf⟩ := List.mem_flatMap.mp hf
      cases hstruct : ts.isValueType f.ty with
      | false =>
        refine ⟨0, fun limit fuel _ _ => isSome_slotDefault fun hvalue => ?_⟩
        rw [isValueType_withLimit, hstruct] at hvalue
        cases hvalue
      | true =>
        have hholds : ts.HoldsStruct t f.ty := ⟨hstruct, s, hreach s hs, f, hf, rfl⟩
        obtain ⟨bound, hbound⟩ := ih f.ty hholds ((hground s hs).field hts.wellFielded hf)
        exact ⟨bound, fun limit fuel hlimit hfuel =>
          isSome_slotDefault fun _ => hbound limit fuel hlimit hfuel⟩
    obtain ⟨bound, hbound⟩ := exists_bound_of_forall_mem
      (fun f n m hnm h limit fuel hlimit hfuel => h limit fuel (by omega) (by omega)) hslot
    refine ⟨max k bound + 1, fun limit fuel hlimit hfuel => ?_⟩
    obtain ⟨fuel, rfl⟩ : ∃ n, fuel = n + 1 := ⟨fuel - 1, by omega⟩
    rw [freshFields?, instanceFields_eq, baseChain_of_climb? hchain (by omega)]
    exact isSome_fill (fun f hf => hbound f hf limit fuel (by omega) (by omega)) _

namespace Sample

/-- A chain has no fresh fields under any limit, as the chain in it has none. -/
theorem freshFields?_chain (limit fuel n : Nat) :
    (growing.types limit).freshFields? fuel (nest "Chain" (n + 1)) = none := by
  induction fuel generalizing n with
  | zero => rfl
  | succ fuel ih =>
    have hfields : (growing.types limit).instanceFields (nest "Chain" (n + 1)) =
        [⟨"value", .int, false, .record⟩,
          ⟨"next", nest "Chain" (n + 1 + 1), false, .record⟩] := by
      rw [instanceFields_eq, baseChain_of_base?_eq_none rfl]
      rfl
    have hnext : (growing.types limit).slotDefault ((growing.types limit).freshFields? fuel)
        (nest "Chain" (n + 1 + 1)) = none := by
      have hstruct : ((growing.types limit).isValueType (nest "Chain" (n + 1 + 1)) &&
          !(nest "Chain" (n + 1 + 1)).isOpen) = true := by
        rw [nest_closed]
        rfl
      have hprimitive : primitiveDefault? (nest "Chain" (n + 1 + 1)) = none := rfl
      simp only [slotDefault, hprimitive, if_pos hstruct, ih (n + 1), Option.map_none]
    rw [freshFields?, hfields]
    simp only [fill, hnext]
    rfl

end Sample

end TypeSystem

end Introspect

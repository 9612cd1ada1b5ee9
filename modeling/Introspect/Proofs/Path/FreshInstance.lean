import Introspect.Proofs.Defaults
import Introspect.Proofs.Path.Composition

/-!
Paths through fresh instances. A path of fields finds each field where the fresh instance has
entered it, so it reads the default of the type that it ends at.
-/

namespace Introspect

namespace TypeSystem

variable {ts : TypeSystem} {t s : Ty} {f : FieldInfo} {fields : Fields}

/-! ### Fields by name -/

/-- The fields that a type itself declares under a name. -/
theorem filterMap_declaredMembers (ts : TypeSystem) (t : Ty) (name : String) :
    (ts.declaredMembers t name false).filterMap Member.field? =
      (ts.recordFieldsOf t).filter fun f => f.name == name := by
  cases t with
  | named n args =>
    simp only [declaredMembers, recordFieldsOf]
    cases ts.find? n with
    | none => rfl
    | some d =>
      simp only [TypeDef.declared, TypeDef.recordFields, List.filterMap_map, List.filterMap_filter,
        List.map_filterMap, List.filter_filterMap]
      congr 1
      funext m
      cases m with
      | field f =>
        cases hstatic : f.isStatic <;> cases hname : f.name == name <;>
          simp [Member.name, Member.isStatic, Member.field?, Member.instantiate, Member.mapTypes,
            FieldInfo.instantiate, Option.filter, hstatic, hname]
      | _ => simp [Member.field?, Member.instantiate, Member.mapTypes]
  | _ => rfl

/-- A search for a field by name finds the first one that an instance holds. -/
theorem findSome?_findMembers (ts : TypeSystem) (t : Ty) (name : String) :
    (ts.findMembers t name .instances).findSome? Member.field? =
      (ts.instanceFields t).find? fun f => f.name == name := by
  rw [instanceFields_eq, ← List.head?_filterMap, ← List.head?_filter, List.filter_flatMap]
  cases t with
  | named n args =>
    have hmembers : ts.findMembers (.named n args) name .instances =
        (ts.baseChain (.named n args)).flatMap fun s => ts.declaredMembers s name false := rfl
    rw [hmembers, List.filterMap_flatMap]
    simp only [filterMap_declaredMembers]
  | array elem =>
    -- The length of an array is a property.
    rw [baseChain_of_base?_eq_none rfl, findMembers]
    split <;> rfl
  | param p =>
    rw [baseChain_of_base?_eq_none rfl]
    rfl

theorem storage_of_mem_instanceFields (hf : f ∈ ts.instanceFields t) : f.storage = .record := by
  rw [instanceFields_eq] at hf
  obtain ⟨s, -, hf⟩ := List.mem_flatMap.mp hf
  obtain ⟨n, args, d, -, -, declared, hdeclared, rfl⟩ := mem_recordFieldsOf.mp hf
  have hstatic : declared.isStatic = false := (TypeDef.mem_recordFields.mp hdeclared).2
  have hrecord : declared.storage = .record := by simpa [FieldInfo.isStatic] using hstatic
  exact hrecord

/-- The primitives hold no fields. -/
theorem HasBuiltins.primitiveDefault?_eq_none (hts : ts.HasBuiltins)
    (hf : f ∈ ts.instanceFields t) : primitiveDefault? t = none := by
  have hprimitive {n : String} {args : List Ty} {d : TypeDef} (hd : ts.find? n = some d)
      (hbase : d.base = none) (hfields : d.recordFields = []) :
      f ∉ ts.instanceFields (.named n args) := by
    have hnone : ts.base? (.named n args) = none := by
      simp only [base?, hd, Option.bind_eq_bind, Option.bind_some, hbase, Option.bind_none]
    rw [instanceFields_eq, baseChain_of_base?_eq_none hnone, List.flatMap_singleton]
    simp only [recordFieldsOf, hd, hfields, List.map_nil, List.not_mem_nil, not_false_eq_true]
  cases t with
  | named n args =>
    simp only [primitiveDefault?, Ty.definitionName?]
    split
    next hname =>
      cases hname
      exact absurd hf (hprimitive (hts "int" (.new "int" .structType) rfl) rfl rfl)
    next hname =>
      cases hname
      exact absurd hf (hprimitive (hts "float" (.new "float" .structType) rfl) rfl rfl)
    next hname =>
      cases hname
      exact absurd hf (hprimitive (hts "bool" (.new "bool" .structType) rfl) rfl rfl)
    next => rfl
  | _ => rfl

end TypeSystem

/-- The fields of a struct, or those in the record of an object. -/
inductive Value.HasFields (h : Heap) (fields : Fields) : Value → Prop where
  | struct (ty : Ty) : HasFields h fields (.struct ty fields)
  | object (id : RecordId) (hid : (h.record id).fields = fields) : HasFields h fields (.object id)

theorem TypeSystem.fresh_hasFields (ts : TypeSystem) (t : Ty) (fields : Fields) (h : Heap) :
    (ts.fresh t fields h).1.HasFields (ts.fresh t fields h).2 fields := by
  unfold TypeSystem.fresh
  split
  · exact .struct t
  · exact .object _ (by simp [Heap.record, Heap.addRecord])

theorem PathStep.read_field {h : Heap} {fields : Fields} {v w : Value} {f : FieldInfo}
    (hf : f.storage = .record) (hv : v.HasFields h fields)
    (hw : Assoc.find? f.name fields = some w) :
    (PathStep.member (.field f) false).read v h = (.ok w, h) := by
  have hstored : (PathStep.member (.field f) false).isStored = true := by
    simp [isStored, FieldInfo.isStatic, hf]
  refine (read_eq_ok_iff hstored).mpr ⟨rfl, ?_⟩
  cases hv with
  | struct ty =>
    refine ⟨.inr rfl, ?_⟩
    simp only [found?, place?, hf]
    exact hw
  | object id hid =>
    refine ⟨.inr rfl, ?_⟩
    simp only [found?, place?, hf, Heap.content?, hid]
    exact hw

namespace CompiledPath

open Relation (TransGen)
open TypeSystem.Sample (growing growing_irrefl climb?_tower freshFields?_chain one)

variable {ts : TypeSystem} {rules : Rules}

/-- Whether each step goes to the field that an instance of the type before it has by that name. -/
def FieldsFrom (ts : TypeSystem) : Ty → List PathStep → Prop
  | _, [] => True
  | owner, s :: rest =>
    (∃ f, s = .member (.field f) false ∧
      (ts.instanceFields owner).find? (fun g => g.name == f.name) = some f) ∧
    FieldsFrom ts s.resultTy rest

theorem find?_of_memberStep {owner : Ty} {segment : Segment} {path : String} {f : FieldInfo}
    {isStatic : Bool}
    (h : memberStep ts rules owner segment false path = .ok (.member (.field f) isStatic)) :
    (ts.instanceFields owner).find? (fun g => g.name == f.name) = some f := by
  have hcall {members : List Member} {args : List Value} (h : callStep ts owner segment.name
      members args false = .ok (.member (.field f) isStatic)) : False := by
    obtain ⟨m, hm⟩ := callStep_eq_ok h
    cases hm
  simp only [memberStep] at h
  split at h
  · exact (hcall h).elim
  · split at h
    next g hg =>
      cases h
      have hfound : (ts.instanceFields owner).find? (fun g => g.name == segment.name) = some f :=
        (ts.findSome?_findMembers owner segment.name).symm.trans hg
      have hname : f.name = segment.name := by simpa using List.find?_some hfound
      rwa [hname]
    next =>
      split at h
      · cases h
      · split at h
        · cases h
        · split at h
          · exact (hcall h).elim
          · cases h

/-- The types along a resolved path of fields. -/
theorem fieldsFrom_of_resolve {path : String} {owner : Ty} {raws : List String}
    {steps : List PathStep} (hfields : ∀ s ∈ steps, ∃ f, s = .member (.field f) false)
    (h : resolve ts rules path false owner raws = .ok steps) : FieldsFrom ts owner steps := by
  induction raws generalizing owner steps with
  | nil =>
    cases h
    trivial
  | cons raw rest ih =>
    obtain ⟨segment, first, later, -, hfirst, hlater, rfl⟩ := resolve_cons_eq_ok.mp h
    obtain ⟨step, indices, hstep, hindices, rfl⟩ := segmentSteps_eq_ok_iff.mp hfirst
    obtain ⟨f, rfl⟩ := hfields step (by simp)
    -- The indices of a segment would be steps to elements.
    have hnone : indices = [] := by
      cases hs : segment.indices with
      | nil =>
        rw [hs] at hindices
        cases hindices
        rfl
      | cons index more =>
        rw [hs] at hindices
        obtain ⟨element, helement, hindices⟩ := Except.bind_eq_ok.mp hindices
        obtain ⟨others, -, hindices⟩ := Except.bind_eq_ok.mp hindices
        cases hindices
        obtain ⟨g, rfl⟩ := hfields element (by simp)
        unfold indexStep at helement
        split at helement <;> cases helement
    subst hnone
    have hrest : ∀ s ∈ later, ∃ f, s = .member (.field f) false :=
      fun s hs => hfields s (List.mem_cons_of_mem _ hs)
    exact ⟨⟨f, rfl, find?_of_memberStep hstep⟩, ih hrest hlater⟩

theorem resolve_ne_nil {path : String} {isStatic : Bool} {owner : Ty} {raws : List String}
    {steps : List PathStep} (hraws : raws ≠ [])
    (h : resolve ts rules path isStatic owner raws = .ok steps) : steps ≠ [] := by
  obtain ⟨raw, rest, rfl⟩ := List.exists_cons_of_ne_nil hraws
  obtain ⟨segment, first, later, -, hfirst, -, rfl⟩ := resolve_cons_eq_ok.mp h
  exact List.append_ne_nil_of_left_ne_nil (segmentSteps_eq_ok hfirst).1 later

/-- A path of fields through structs reads the default of the type that it ends at from whatever has
the fresh fields of the type that it starts from. -/
theorem readAll_freshFields (hbuiltins : ts.HasBuiltins) (hts : ts.WellFielded) {limit : Nat}
    {t : Ty} (ht : ts.Ground t) {steps : List PathStep} (hne : steps ≠ [])
    (hsteps : FieldsFrom (ts.withLimit limit) t steps)
    (hstructs : ∀ s ∈ steps.dropLast, ts.isValueType s.resultTy = true) {fields : Fields}
    (hfields : (ts.withLimit limit).freshFields? limit t = some fields) {h : Heap} {v : Value}
    (hv : v.HasFields h fields) :
    ∃ w, (ts.withLimit limit).slotDefault? (endTy t steps) = some w ∧
      readAll steps v h = (.ok w, h) := by
  induction steps generalizing t fields v with
  | nil => exact (hne rfl).elim
  | cons s rest ih =>
    obtain ⟨⟨f, rfl, hfirst⟩, hrest⟩ := hsteps
    have hmem := List.mem_of_find?_eq_some hfirst
    obtain ⟨w, hw, hfound⟩ := TypeSystem.find?_freshFields? hfields hfirst
    have hread := PathStep.read_field (TypeSystem.storage_of_mem_instanceFields hmem) hv hfound
    rw [endTy_cons, readAll_cons, Action.bind_ok hread]
    cases rest with
    | nil => exact ⟨w, hw, rfl⟩
    | cons next rest =>
      -- The default is a struct with fields of its own, for the next step goes to one of them.
      have hground : ts.Ground f.ty := ht.instanceField hts hmem
      have hstruct : (ts.withLimit limit).isValueType f.ty = true :=
        (ts.isValueType_withLimit limit f.ty).trans (hstructs _ List.mem_cons_self)
      obtain ⟨g, -, hnext⟩ := hrest.1
      have hlimited : (ts.withLimit limit).HasBuiltins := hbuiltins
      have hprimitive := hlimited.primitiveDefault?_eq_none (List.mem_of_find?_eq_some hnext)
      obtain ⟨inner, hinner, rfl⟩ :=
        TypeSystem.slotDefault?_eq_struct hprimitive hstruct hground.closed hw
      exact ih hground (List.cons_ne_nil _ _) hrest
        (fun s hs => hstructs s (List.mem_cons_of_mem _ hs)) hinner (.struct _)

/-- Through a fresh instance a path of fields, all but the last of struct types, reads the default
of the type that it ends at. The table has to be one in which instances come to an end, and the type
has to apply definitions at their arity. -/
theorem get_instantiate (hts : ts.Finitary) {n : String} {args : List Ty}
    (hn : (ts.find? n).isSome = true) (hlist : n ≠ "List") (harray : n ≠ "ArrayList")
    (ht : ts.Ground (.named n args)) :
    ∃ bound, ∀ limit, bound ≤ limit → ∀ rules text p,
      compile (ts.withLimit limit) rules (.named n args) text false = .ok p →
      (∀ s ∈ p.steps, ∃ f, s = .member (.field f) false) →
      (∀ s ∈ p.steps.dropLast, ts.isValueType s.resultTy = true) →
      ∀ h, ∃ root h' v, (ts.withLimit limit).instantiate (.named n args) h = (.ok root, h') ∧
        (ts.withLimit limit).defaultValue p.resultTy h' = (.ok v, h') ∧
        p.get root h' = (.ok v, h') := by
  obtain ⟨bound, hbound⟩ := hts.exists_freshFields? ht
  refine ⟨bound, fun limit hlimit rules text p hp hfields hstructs h => ?_⟩
  obtain ⟨raws, steps, hraws, hsteps, rfl⟩ := compile_eq_ok.mp hp
  have hne : steps ≠ [] := resolve_ne_nil (Segment.split_ne_nil hraws) hsteps
  obtain ⟨fields, hfresh⟩ := Option.isSome_iff_exists.mp (hbound limit limit hlimit hlimit)
  have hrecord : TypeSystem.IsRecordType (.named n args) :=
    ⟨fun he => hlist (Option.some.inj he), fun he => harray (Option.some.inj he)⟩
  have hbuiltins : (ts.withLimit limit).HasBuiltins := hts.builtins
  have hmade := TypeSystem.instantiate_eq hbuiltins hn hrecord ht.closed hfresh h
  obtain ⟨w, hw, hread⟩ := readAll_freshFields hts.builtins hts.wellFielded ht hne
    (fieldsFrom_of_resolve hfields hsteps) hstructs hfresh
    ((ts.withLimit limit).fresh_hasFields (.named n args) fields h)
  refine ⟨_, _, w, hmade, ?_, hread⟩
  rw [TypeSystem.defaultValue_eq hbuiltins]
  exact congrArg (fun v? => (Except.ok (v?.getD .null), _)) hw

namespace Sample

def vector : TypeDef :=
  { TypeDef.new "Vector" .structType with
    members := [.field ⟨"x", .int, false, .record⟩, .field ⟨"y", .int, false, .record⟩] }

/-- A struct `Placed<T>` with a place and an item of its parameter. -/
def placed : TypeDef :=
  { TypeDef.new "Placed" .structType with
    params := [⟨"T", .none, []⟩]
    members := [.field ⟨"at", .plain "Vector", false, .record⟩,
      .field ⟨"item", .param ⟨"Placed", 0, "T"⟩, false, .record⟩] }

/-- A class `Entity<T>` with a slot `Placed<T>` and a parent of its own type. -/
def entity : TypeDef :=
  let own := Ty.param ⟨"Entity", 0, "T"⟩
  { TypeDef.new "Entity" .classType with
    params := [⟨"T", .none, []⟩]
    members := [.field ⟨"id", .int, false, .record⟩,
      .field ⟨"slot", .named "Placed" [own], false, .record⟩,
      .field ⟨"parent", .named "Entity" [own], false, .record⟩] }

/-- A class `Enemy: Entity<Vector>` with an `id` of another type. -/
def enemy : TypeDef :=
  { TypeDef.new "Enemy" .classType with
    base := some (.named "Entity" [.plain "Vector"])
    members := [.field ⟨"id", .float, false, .record⟩] }

def entities : Registry := ⟨Registry.builtin.definitions ++ [vector, placed, entity, enemy]⟩

def entityRank (name : String) : Nat :=
  ["int", "float", "IEnumerable", "IList", "List", "ArrayList", "Vector", "Placed", "Entity",
    "Enemy"].idxOf name

theorem entities_finitary : (entities.types 0).Finitary where
  builtins := TypeSystem.hasBuiltins_of_definitions rfl 0
  wellFielded := TypeSystem.wellFielded_of_definitions (by decide)
  basesEnd := fun t _ => by
    have hall : (entities.definitions.all fun d => (d.base.toList ++ d.interfaces).all fun u =>
        u.definitionName?.any fun m => decide (entityRank m < entityRank d.name)) = true := by
      decide
    simp only [List.all_eq_true, Option.any_eq_true, decide_eq_true_eq] at hall
    refine (TypeSystem.finitelyAbove_of_rank entityRank (fun n d hd => ?_) t).exists_climb?
    obtain ⟨hmem, rfl⟩ := TypeSystem.mem_definitions_of_find? hd
    exact hall d hmem
  structsEnd := fun t _ => by
    have hall : ∀ d ∈ entities.definitions, ∀ u ∈ d.base.toList ++
        (d.recordFields.map (·.ty)).filter (entities.types 0).isValueType,
        ∀ m ∈ u.names, entityRank m < entityRank d.name := by decide
    refine TypeSystem.structsEnd_of_rank entityRank (fun n d hd => ?_) t
    obtain ⟨hmem, rfl⟩ := TypeSystem.mem_definitions_of_find? hd
    exact hall d hmem

/-- The steps to a slot, to something in it and to a coordinate of that. -/
def slotSteps (item : Ty) (inside : FieldInfo) : List PathStep :=
  [.member (.field ⟨"slot", .named "Placed" [item], false, .record⟩) false,
    .member (.field inside) false, .member (.field ⟨"x", .int, false, .record⟩) false]

end Sample

/-- The slot of an enemy is inherited, and its item is of the type that the base is given. -/
theorem get_instantiate_enemy :
    (Sample.entities.types 0).Finitary ∧ ((Sample.entities.types 0).find? "Enemy").isSome = true ∧
    (Sample.entities.types 0).Ground (.plain "Enemy") ∧
    ∃ bound, ∀ limit, bound ≤ limit → ∀ rules,
      let ts := (Sample.entities.types 0).withLimit limit
      let steps := Sample.slotSteps (.plain "Vector") ⟨"item", .plain "Vector", false, .record⟩
      compile ts rules (.plain "Enemy") "slot.item.x" false =
        .ok ⟨.plain "Enemy", "slot.item.x", false, steps⟩ ∧
      (∀ s ∈ steps.dropLast, ts.isValueType s.resultTy = true) ∧
      ∀ h, ∃ root h', ts.instantiate (.plain "Enemy") h = (.ok root, h') ∧
        readAll steps root h' = (.ok (.int 0), h') := by
  have hground : (Sample.entities.types 0).Ground (.plain "Enemy") := ⟨rfl, by decide⟩
  obtain ⟨bound, hbound⟩ :=
    get_instantiate Sample.entities_finitary rfl (by decide) (by decide) hground
  refine ⟨Sample.entities_finitary, rfl, hground, max bound 8, fun limit hlimit rules => ?_⟩
  obtain ⟨k, rfl⟩ : ∃ k, limit = k + 8 := ⟨limit - 8, by omega⟩
  have hcompile : compile ((Sample.entities.types 0).withLimit (k + 8)) rules (.plain "Enemy")
      "slot.item.x" false = .ok ⟨.plain "Enemy", "slot.item.x", false,
        Sample.slotSteps (.plain "Vector") ⟨"item", .plain "Vector", false, .record⟩⟩ := rfl
  have hstructs : ∀ s ∈ (Sample.slotSteps (.plain "Vector")
      ⟨"item", .plain "Vector", false, .record⟩).dropLast,
      (Sample.entities.types 0).isValueType s.resultTy = true := by decide
  refine ⟨hcompile, hstructs, fun h => ?_⟩
  obtain ⟨root, h', v, hmade, hdefault, hget⟩ := hbound (k + 8) (by omega) rules _ _ hcompile
    (by simp [Sample.slotSteps]) hstructs h
  cases hdefault
  exact ⟨root, h', hmade, hget⟩

/-- Without its argument the class of entities is closed too, but its slot is not, so there is
nothing in the slot to read. And where types grow there may be no instance at all, though none of
them is inside itself. -/
theorem not_get_instantiate_entity :
    ((Sample.entities.types 0).Finitary ∧
      ((Sample.entities.types 0).find? "Entity").isSome = true ∧
      (Ty.plain "Entity").isOpen = false ∧
      (Sample.entities.types 0).atArity (.plain "Entity") = false ∧
      ∀ limit, 8 ≤ limit → ∀ rules,
        let ts := (Sample.entities.types 0).withLimit limit
        let steps := Sample.slotSteps (.param ⟨"Entity", 0, "T"⟩)
          ⟨"at", .plain "Vector", false, .record⟩
        compile ts rules (.plain "Entity") "slot.at.x" false =
          .ok ⟨.plain "Entity", "slot.at.x", false, steps⟩ ∧
        (∀ s ∈ steps.dropLast, ts.isValueType s.resultTy = true) ∧
        ∃ root h', ts.instantiate (.plain "Entity") .empty = (.ok root, h') ∧
          ts.defaultValue .int h' = (.ok (.int 0), h') ∧
          readAll steps root h' = (.error (.nullReference "at"), h')) ∧
    ((growing.types 0).HasBuiltins ∧
      (growing.types 0).WellFielded ∧
      (∀ t, ¬TransGen (growing.types 0).HoldsStruct t t) ∧
      ∀ limit, (growing.types limit).baseChain? (one "Tower" .int) = none ∧
        ∀ h, (growing.types limit).make? limit (one "Chain" .int) h = none) := by
  refine ⟨⟨Sample.entities_finitary, rfl, rfl, by decide, fun limit hlimit rules => ?_⟩,
    TypeSystem.hasBuiltins_of_definitions rfl 0,
    TypeSystem.wellFielded_of_definitions (by decide), growing_irrefl 0,
    fun limit => ⟨?_, fun h => ?_⟩⟩
  · obtain ⟨k, rfl⟩ : ∃ k, limit = k + 8 := ⟨limit - 8, by omega⟩
    have hstructs : ∀ s ∈ (Sample.slotSteps (.param ⟨"Entity", 0, "T"⟩)
        ⟨"at", .plain "Vector", false, .record⟩).dropLast,
        (Sample.entities.types 0).isValueType s.resultTy = true := by decide
    exact ⟨rfl, hstructs, _, _, rfl, rfl, rfl⟩
  · exact climb?_tower limit limit 0 (List.forall_mem_singleton.mpr ⟨1, Nat.le_refl 1, rfl⟩)
  · have hbuiltins : (growing.types limit).HasBuiltins :=
      TypeSystem.hasBuiltins_of_definitions rfl limit
    have hrecord : TypeSystem.IsRecordType (one "Chain" .int) := ⟨by decide, by decide⟩
    have hnone : (growing.types limit).freshFields? limit (one "Chain" .int) = none :=
      freshFields?_chain limit limit 0
    rw [TypeSystem.make?_eq hbuiltins limit hrecord, hnone, Option.map_none]

end CompiledPath

end Introspect

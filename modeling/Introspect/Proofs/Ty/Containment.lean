import Introspect.Proofs.Ty.Instantiation
import Introspect.Proofs.Typing

/-!
Structs in structs. A struct is held in place, so the default of a struct has those of all structs
inside it. The ways from struct to struct end if the definitions are ranked, whatever the arguments
bring in. Without cycles alone they need not end, as a struct may hold ever larger instances.
-/

namespace Introspect

open Relation (ReflTransGen TransGen)

namespace Ty

mutual

/-- The names of all definitions that a type mentions. -/
def names : Ty → List String
  | named n args => n :: namesAll args
  | array elem => names elem
  | param _ => []

def namesAll : List Ty → List String
  | [] => []
  | t :: rest => names t ++ namesAll rest

end

theorem names_subset_of_arg {args : List Ty} {a : Ty} (ha : a ∈ args) :
    a.names ⊆ namesAll args := by
  induction args with
  | nil => cases ha
  | cons t rest ih =>
    rw [namesAll]
    rcases List.mem_cons.mp ha with rfl | ha
    · exact List.subset_append_left _ _
    · exact List.subset_append_of_subset_right _ (ih ha)

end Ty

/-! ### Closed types at their arity -/

namespace TypeSystem

/-- A closed type that applies definitions at their arity. -/
structure Ground (ts : TypeSystem) (t : Ty) : Prop where
  closed : t.isOpen = false
  atArity : ts.atArity t = true

variable {ts : TypeSystem} {t u : Ty}

theorem atArityAll_iff {types : List Ty} :
    ts.atArityAll types = true ↔ ∀ t ∈ types, ts.atArity t = true := by
  induction types with
  | nil => simp [atArityAll]
  | cons t rest ih => rw [atArityAll, Bool.and_eq_true, ih, List.forall_mem_cons]

theorem atArity_subst {f : TyParam → Option Ty} (ht : ts.atArity t = true)
    (hf : ∀ q ∈ t.occurrences, ts.atArity ((Ty.param q).subst f) = true) :
    ts.atArity (t.subst f) = true := by
  induction t using Ty.ind with
  | named n as ih =>
    rw [atArity, Bool.and_eq_true, atArityAll_iff] at ht
    rw [Ty.subst_named, atArity, Bool.and_eq_true, atArityAll_iff, List.length_map]
    refine ⟨ht.1, List.forall_mem_map.mpr fun a ha => ih a ha (ht.2 a ha) fun q hq => hf q ?_⟩
    rw [Ty.occurrences_named]
    exact List.mem_flatMap.mpr ⟨a, ha, hq⟩
  | array a ih => exact ih ht hf
  | param q => exact hf q (List.mem_singleton_self q)

/-- What a definition declares with its own parameters alone is closed for closed arguments. -/
theorem Ground.instantiate {n : String} {args : List Ty} {d : TypeDef}
    (ht : ts.Ground (.named n args)) (hd : ts.find? n = some d) (hu : d.Owns u)
    (harity : ts.atArity u = true) : ts.Ground (u.instantiate d.name args) := by
  have hargs := ht.atArity
  rw [TypeSystem.atArity, Bool.and_eq_true, atArityAll_iff, hd, Option.all_some,
    beq_iff_eq] at hargs
  have hparam (q : TyParam) (hq : q ∈ u.occurrences) : ∃ a ∈ args,
      (Ty.param q).subst (fun p => if p.owner == d.name then args[p.index]? else none) = a := by
    obtain ⟨howner, hindex⟩ := hu q hq
    rw [hargs.1] at hindex
    exact ⟨args[q.index], List.getElem_mem hindex, by simp [Ty.subst, howner, hindex]⟩
  refine ⟨Ty.isOpen_subst fun q hq => ?_, atArity_subst harity fun q hq => ?_⟩
  · obtain ⟨a, ha, heq⟩ := hparam q hq
    rw [heq]
    exact Ty.isOpen_arg ht.closed ha
  · obtain ⟨a, ha, heq⟩ := hparam q hq
    rw [heq]
    exact hargs.2 a ha

end TypeSystem

/-- A definition whose base and record fields mention only its own parameters and apply definitions
at their arity. -/
structure TypeDef.WellFielded (ts : TypeSystem) (d : TypeDef) : Prop where
  owned : ∀ u ∈ d.base.toList ++ d.recordFields.map (·.ty), d.Owns u
  atArity : ∀ u ∈ d.base.toList ++ d.recordFields.map (·.ty), ts.atArity u = true

instance (ts : TypeSystem) (d : TypeDef) : Decidable (d.WellFielded ts) :=
  decidable_of_iff ((∀ u ∈ d.base.toList ++ d.recordFields.map (·.ty), d.Owns u) ∧
      ∀ u ∈ d.base.toList ++ d.recordFields.map (·.ty), ts.atArity u = true)
    ⟨fun h => ⟨h.1, h.2⟩, fun h => ⟨h.owned, h.atArity⟩⟩

namespace TypeSystem

/-- Whether every definition is well fielded. -/
def WellFielded (ts : TypeSystem) : Prop := ∀ n d, ts.find? n = some d → d.WellFielded ts

theorem wellFielded_of_definitions {r : Registry} {limit : Nat}
    (h : ∀ d ∈ r.definitions, d.WellFielded (r.types limit)) : (r.types limit).WellFielded :=
  fun _ d hd => h d (List.mem_of_find?_eq_some hd)

variable {ts : TypeSystem} {t u s : Ty} {f : FieldInfo} {fields : Fields}

/-- Whether a struct type is that of a record field of a type or of one of its bases. -/
def HoldsStruct (ts : TypeSystem) (t u : Ty) : Prop :=
  ts.isValueType u = true ∧
    ∃ s, ReflTransGen (fun a b => ts.base? a = some b) t s ∧ ∃ f ∈ ts.recordFieldsOf s, f.ty = u

/-- Whether each way from a type to a struct in its fields, and on from there, ends. -/
def StructsEnd (ts : TypeSystem) (t : Ty) : Prop := Acc (fun u t => ts.HoldsStruct t u) t

/-- A table in which the recursions over closed types come to an end: base chains are finite, and so
is each way from a struct to a struct in its fields. In particular no struct contains itself. -/
structure Finitary (ts : TypeSystem) : Prop where
  builtins : ts.HasBuiltins
  wellFielded : ts.WellFielded
  basesEnd : ∀ t, ts.Ground t → ∃ fuel chain, ts.climb? fuel t [t] = some chain
  structsEnd : ∀ t, ts.Ground t → ts.StructsEnd t

theorem Ground.base (hts : ts.WellFielded) (ht : ts.Ground t) (hu : ts.base? t = some u) :
    ts.Ground u := by
  cases t with
  | named n args =>
    obtain ⟨d, hd, hu⟩ := Option.bind_eq_some_iff.mp hu
    obtain ⟨b, hb, hu⟩ := Option.bind_eq_some_iff.mp hu
    cases hu
    have hmem : b ∈ d.base.toList ++ d.recordFields.map (·.ty) :=
      List.mem_append_left _ (Option.mem_toList.mpr hb)
    exact ht.instantiate hd ((hts n d hd).owned b hmem) ((hts n d hd).atArity b hmem)
  | _ => cases hu

theorem Ground.field (hts : ts.WellFielded) (ht : ts.Ground t) (hf : f ∈ ts.recordFieldsOf t) :
    ts.Ground f.ty := by
  obtain ⟨n, args, d, rfl, hd, declared, hmem, rfl⟩ := mem_recordFieldsOf.mp hf
  have hmem : declared.ty ∈ d.base.toList ++ d.recordFields.map (·.ty) :=
    List.mem_append_right _ (List.mem_map_of_mem hmem)
  exact ht.instantiate hd ((hts n d hd).owned _ hmem) ((hts n d hd).atArity _ hmem)

/-! ### Tables without cycles -/

theorem mem_definitions_of_find? {r : Registry} {limit : Nat} {n : String} {d : TypeDef}
    (h : (r.types limit).find? n = some d) : d ∈ r.definitions ∧ d.name = n := by
  have hfound : r.definitions.find? (fun d => d.name == n) = some d := h
  exact ⟨List.mem_of_find?_eq_some hfound, by simpa using List.find?_some hfound⟩

theorem HoldsStruct.cases_head (h : ts.HoldsStruct t u) :
    (ts.isValueType u = true ∧ ∃ f ∈ ts.recordFieldsOf t, f.ty = u) ∨
      ∃ b, ts.base? t = some b ∧ ts.HoldsStruct b u := by
  obtain ⟨hu, s, hs, hf⟩ := h
  rcases hs.cases_head with rfl | ⟨b, hb, hs⟩
  · exact .inl ⟨hu, hf⟩
  · exact .inr ⟨b, hb, hu, s, hs, hf⟩

theorem StructsEnd.of_direct (hbase : ∀ b, ts.base? t = some b → ts.StructsEnd b)
    (hfield : ∀ f ∈ ts.recordFieldsOf t, ts.isValueType f.ty = true → ts.StructsEnd f.ty) :
    ts.StructsEnd t := by
  refine .intro t fun u hu => ?_
  rcases hu.cases_head with ⟨hu, f, hf, rfl⟩ | ⟨b, hb, hu⟩
  · exact hfield f hf hu
  · exact (hbase b hb).inv hu

/-- Only a named type has fields. -/
theorem structsEnd_of_definitionName?_eq_none (ht : t.definitionName? = none) :
    ts.StructsEnd t := by
  refine StructsEnd.of_direct (fun b hb => ?_) fun f hf _ => ?_
  · cases t with
    | named n args => cases ht
    | _ => cases hb
  · cases t with
    | named n args => cases ht
    | _ => cases hf

/-- What is declared with some definitions and parameters is as good as their instances. -/
theorem StructsEnd.instantiate {args : List Ty} (hargs : ∀ a ∈ args, ts.StructsEnd a)
    (hnames : ∀ n ∈ t.names, ∀ as, (∀ a ∈ as, ts.StructsEnd a) → ts.StructsEnd (.named n as))
    (owner : String) : ts.StructsEnd (t.instantiate owner args) := by
  unfold Ty.instantiate
  induction t using Ty.ind with
  | named n as ih =>
    rw [Ty.subst_named]
    refine hnames n List.mem_cons_self _ (List.forall_mem_map.mpr fun a ha => ih a ha ?_)
    exact fun m hm => hnames m (List.mem_cons_of_mem _ (Ty.names_subset_of_arg ha hm))
  | array a => exact structsEnd_of_definitionName?_eq_none rfl
  | param p =>
    rw [Ty.subst]
    split
    · cases ha : args[p.index]? with
      | none => exact structsEnd_of_definitionName?_eq_none rfl
      | some a => exact hargs a (List.mem_of_getElem? ha)
    · exact structsEnd_of_definitionName?_eq_none rfl

/-- If the bases and struct fields of every definition only mention definitions of lower rank then
each way from a struct to a struct in its fields ends, whatever the arguments bring in. -/
theorem structsEnd_of_rank (rank : String → Nat)
    (hrank : ∀ n d, ts.find? n = some d →
      ∀ u ∈ d.base.toList ++ (d.recordFields.map (·.ty)).filter ts.isValueType,
        ∀ m ∈ u.names, rank m < rank n) (t : Ty) : ts.StructsEnd t := by
  have hnamed (k : Nat) : ∀ n args, rank n = k → (∀ a ∈ args, ts.StructsEnd a) →
      ts.StructsEnd (.named n args) := by
    induction k using Nat.strongRecOn with
    | ind k ih =>
      intro n args hk hargs
      have hlower {u : Ty} (hu : ∀ m ∈ u.names, rank m < rank n) (owner : String) :
          ts.StructsEnd (u.instantiate owner args) :=
        .instantiate hargs (fun m hm as => ih (rank m) (hk ▸ hu m hm) m as rfl) owner
      refine .of_direct (fun b hb => ?_) fun f hf hstruct => ?_
      · obtain ⟨d, hd, hb⟩ := Option.bind_eq_some_iff.mp hb
        obtain ⟨declared, hdeclared, hb⟩ := Option.bind_eq_some_iff.mp hb
        cases hb
        have hmem : declared ∈ d.base.toList := Option.mem_toList.mpr hdeclared
        exact hlower (hrank n d hd declared (List.mem_append_left _ hmem)) d.name
      · obtain ⟨_, _, d, hnamed, hd, declared, hdeclared, rfl⟩ := mem_recordFieldsOf.mp hf
        cases hnamed
        refine hlower (fun m hm => ?_) d.name
        have hvalue : ts.isValueType declared.ty = true := by
          -- A parameter mentions no names, and an instance of a struct type is of a struct type.
          cases hty : declared.ty with
          | named _ _ =>
            simp only [FieldInfo.instantiate, hty] at hstruct
            exact hstruct
          | array elem =>
            simp only [FieldInfo.instantiate, hty] at hstruct
            cases hstruct
          | param p =>
            rw [hty] at hm
            cases hm
        have hmem := List.mem_filter.mpr ⟨List.mem_map_of_mem hdeclared, hvalue⟩
        exact hrank n d hd _ (List.mem_append_right _ hmem) m hm
  induction t using Ty.ind with
  | named n args ih => exact hnamed _ n args rfl ih
  | array elem => exact structsEnd_of_definitionName?_eq_none rfl
  | param p => exact structsEnd_of_definitionName?_eq_none rfl

/-! ### A table that grows -/

namespace Sample

/-- A struct `Chain<T>` with a larger chain `Chain<Chain<T>>` in it, and a class `Tower<T>` that
derives from a larger tower `Tower<Tower<T>>`. -/
def growing : Registry :=
  ⟨Registry.builtin.definitions ++
    [{ TypeDef.new "Chain" .structType with
        params := [⟨"T", .none, []⟩]
        members := [.field ⟨"value", .int, false, .record⟩,
          .field ⟨"next", one "Chain" (one "Chain" (.param ⟨"Chain", 0, "T"⟩)), false, .record⟩] },
      { TypeDef.new "Tower" .classType with
        params := [⟨"T", .none, []⟩]
        base := some (one "Tower" (one "Tower" (.param ⟨"Tower", 0, "T"⟩)))
        members := [.field ⟨"value", .int, false, .record⟩] }]⟩

/-- How deep the first arguments of a type nest. -/
def depth : Ty → Nat
  | .named _ (a :: _) => depth a + 1
  | _ => 0

theorem growing_field {limit : Nat} (hf : f ∈ (growing.types limit).recordFieldsOf t) :
    f.ty = .int ∨ ∃ args, t = .named "Chain" args ∧ f.ty = one "Chain" (one "Chain"
      (args[0]?.getD (.param ⟨"Chain", 0, "T"⟩))) := by
  obtain ⟨n, args, d, rfl, hd, declared, hdeclared, rfl⟩ := mem_recordFieldsOf.mp hf
  obtain ⟨hmem, rfl⟩ := mem_definitions_of_find? hd
  rcases List.mem_append.mp hmem with hd | hd
  · have hall : ∀ d ∈ Registry.builtin.definitions, d.recordFields.isEmpty = true := by decide
    rw [List.isEmpty_iff.mp (hall d hd)] at hdeclared
    cases hdeclared
  · rcases List.mem_pair.mp hd with rfl | rfl
    · rcases List.mem_pair.mp hdeclared with rfl | rfl
      · exact .inl rfl
      · exact .inr ⟨args, rfl, rfl⟩
    · obtain rfl := List.mem_singleton.mp hdeclared
      exact .inl rfl

theorem growing_base {limit : Nat} (hb : (growing.types limit).base? t = some u) :
    t.definitionName? = some "Tower" ∧ u.definitionName? = some "Tower" := by
  cases t with
  | named n args =>
    obtain ⟨d, hd, hb⟩ := Option.bind_eq_some_iff.mp hb
    obtain ⟨declared, hdeclared, hb⟩ := Option.bind_eq_some_iff.mp hb
    cases hb
    obtain ⟨hmem, rfl⟩ := mem_definitions_of_find? hd
    have hall : ∀ d ∈ growing.definitions, ∀ b ∈ d.base.toList,
        d.name = "Tower" ∧ b.definitionName? = some "Tower" := by decide
    obtain ⟨hname, htower⟩ := hall d hmem declared (Option.mem_toList.mpr hdeclared)
    cases declared with
    | named m as => exact ⟨congrArg some hname, htower⟩
    | _ => cases htower
  | _ => cases hb

/-- What is inside a struct is an integer or nests deeper. -/
theorem depth_of_holdsStruct {limit : Nat} (h : (growing.types limit).HoldsStruct t u) :
    u = .int ∨ depth t < depth u := by
  obtain ⟨-, s, hs, f, hf, rfl⟩ := h
  rcases growing_field hf with hint | ⟨args, rfl, hnext⟩
  · exact .inl hint
  · -- A chain is no base, so it is the type itself.
    rcases hs.cases_tail with rfl | ⟨b, -, hb⟩
    · rw [hnext]
      cases args <;> simp [depth, one]
    · have hname : "Chain" = "Tower" := Option.some.inj (growing_base hb).2
      exact absurd hname (by decide)

theorem not_holdsStruct_int {limit : Nat} : ¬(growing.types limit).HoldsStruct .int u := by
  intro h
  rcases h.cases_head with ⟨-, f, hf, -⟩ | ⟨b, hb, -⟩
  · cases hf
  · cases hb

/-- No type of the growing table is inside itself. -/
theorem growing_irrefl (limit : Nat) (t : Ty) :
    ¬TransGen (growing.types limit).HoldsStruct t t := by
  have hdeeper {u : Ty} (h : TransGen (growing.types limit).HoldsStruct t u) :
      u = .int ∨ depth t < depth u := by
    induction h with
    | single h => exact depth_of_holdsStruct h
    | tail _ hstep ih =>
      rcases ih with rfl | ih
      · exact (not_holdsStruct_int hstep).elim
      · exact (depth_of_holdsStruct hstep).imp_right ih.trans
  intro h
  rcases hdeeper h with rfl | hlt
  · obtain ⟨u, hu, -⟩ := TransGen.head'_iff.mp h
    exact not_holdsStruct_int hu
  · exact Nat.lt_irrefl _ hlt

/-- An integer with a number of applications of one name around it. -/
def nest (name : String) : Nat → Ty
  | 0 => .int
  | n + 1 => one name (nest name n)

theorem nest_closed (name : String) (n : Nat) : (nest name n).isOpen = false := by
  induction n with
  | zero => rfl
  | succ n ih => exact Ty.isOpen_named (List.forall_mem_singleton.mpr ih)

theorem depth_nest (name : String) (n : Nat) : depth (nest name n) = n := by
  induction n with
  | zero => rfl
  | succ n ih => exact congrArg (· + 1) ih

/-- The bases of a tower do not come to an end. -/
theorem climb?_tower (limit fuel n : Nat) {chain : List Ty}
    (hchain : ∀ s ∈ chain, ∃ m ≤ n + 1, s = nest "Tower" m) :
    (growing.types limit).climb? fuel (nest "Tower" (n + 1)) chain = none := by
  induction fuel generalizing n chain with
  | zero => rfl
  | succ fuel ih =>
    have hbase : (growing.types limit).base? (nest "Tower" (n + 1)) =
        some (nest "Tower" (n + 1 + 1)) := rfl
    have hnew : chain.contains (nest "Tower" (n + 1 + 1)) = false := by
      rw [Bool.eq_false_iff]
      intro hcontains
      obtain ⟨s, hs, hsame⟩ := List.contains_iff_exists_mem_beq.mp hcontains
      obtain ⟨m, hm, rfl⟩ := hchain s hs
      have heq := congrArg depth (Ty.eq_of_beq_of_closed hsame (nest_closed _ _))
      rw [depth_nest, depth_nest] at heq
      omega
    rw [climb?, hbase]
    simp only [hnew]
    refine ih (n + 1) (List.forall_mem_append.mpr ⟨fun s hs => ?_, ?_⟩)
    · obtain ⟨m, hm, rfl⟩ := hchain s hs
      exact ⟨m, by omega, rfl⟩
    · exact List.forall_mem_singleton.mpr ⟨_, Nat.le_refl _, rfl⟩

end Sample

end TypeSystem

end Introspect

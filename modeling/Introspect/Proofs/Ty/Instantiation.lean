import Introspect.Proofs.Ty.Assignability

/-!
Types against their instances. Where every definition mentions its own parameters alone and applies
others at their arity, the hierarchy above an instance is that above the type, instantiated. So an
instance converts where the type does, and it has the type's members with their types instantiated.
-/

namespace Introspect

/-! ### Own parameters -/

/-- Whether a type mentions only parameters that the definition declares. -/
def TypeDef.Owns (d : TypeDef) (t : Ty) : Prop :=
  ∀ q ∈ t.occurrences, q.owner = d.name ∧ q.index < d.params.length

instance (d : TypeDef) (t : Ty) : Decidable (d.Owns t) :=
  inferInstanceAs (Decidable (∀ q ∈ t.occurrences, _))

/-- Where every parameter is replaced by an argument, the arguments may be instantiated instead. -/
theorem TypeDef.Owns.subst_instantiate {d : TypeDef} {t : Ty} (ht : d.Owns t) {args : List Ty}
    (hargs : args.length = d.params.length) (f : TyParam → Option Ty) :
    (t.instantiate d.name args).subst f = t.instantiate d.name (args.map (Ty.subst f)) := by
  unfold Ty.instantiate
  rw [Ty.subst_subst]
  refine Ty.subst_congr fun q hq => ?_
  obtain ⟨howner, hindex⟩ := ht q hq
  rw [← hargs] at hindex
  simp [Ty.subst, howner, hindex]

namespace Member

/-- The types that a member is declared with. -/
def types : Member → List Ty
  | field f => [f.ty]
  | property p => [p.ty]
  | method m => m.result :: m.params.map (·.ty)

theorem types_mapTypes (f : Ty → Ty) (m : Member) : (m.mapTypes f).types = m.types.map f := by
  cases m with
  | method m => simp [mapTypes, types]
  | _ => rfl

theorem mapTypes_mapTypes (f g : Ty → Ty) (m : Member) :
    (m.mapTypes f).mapTypes g = m.mapTypes fun t => g (f t) := by
  cases m with
  | method m => simp [mapTypes]
  | _ => rfl

theorem mapTypes_congr {f g : Ty → Ty} {m : Member} (h : ∀ t ∈ m.types, f t = g t) :
    m.mapTypes f = m.mapTypes g := by
  cases m with
  | field i => simp [mapTypes, h i.ty (by simp [types])]
  | property p => simp [mapTypes, h p.ty (by simp [types])]
  | method m =>
    have hresult : f m.result = g m.result := h _ List.mem_cons_self
    have hparams : m.params.map (fun p => { p with ty := f p.ty }) =
        m.params.map fun p => { p with ty := g p.ty } :=
      List.map_congr_left fun p hp => by
        rw [h p.ty (List.mem_cons_of_mem _ (List.mem_map_of_mem hp))]
    simp [mapTypes, hresult, hparams]

end Member

theorem Ty.definitionName?_congr {t u : Ty} (h : t.Same u) :
    t.definitionName? = u.definitionName? := by
  obtain ⟨_, _, _, rfl, rfl, -⟩ | ⟨_, _, rfl, rfl, -⟩ | ⟨_, _, rfl, rfl, -⟩ := same_cases h
  all_goals rfl

/-! ### Arity -/

namespace TypeSystem

/-- Whether a definition, where there is one, has some number of parameters. -/
def hasArity (ts : TypeSystem) (n : String) (arity : Nat) : Bool :=
  (ts.find? n).all (·.params.length == arity)

/-- Whether a named type has as many arguments as its definition has parameters, whatever the
arguments are. An array is applied as its interfaces are. -/
def isApplied (ts : TypeSystem) : Ty → Bool
  | .named n args => ts.hasArity n args.length
  | .array _ => ts.hasArity "IEnumerable" 1 && ts.hasArity "IList" 0
  | .param _ => false

end TypeSystem

/-- A definition that mentions only its own parameters, with named types at their arity as base and
interfaces. -/
structure TypeDef.WellDeclared (ts : TypeSystem) (d : TypeDef) : Prop where
  owned : ∀ u ∈ d.base.toList ++ d.interfaces, d.Owns u
  applied : ∀ u ∈ d.base.toList ++ d.interfaces,
    u.definitionName?.isSome = true ∧ ts.isApplied u = true
  members : ∀ m ∈ d.members, ∀ u ∈ m.types, d.Owns u

instance (ts : TypeSystem) (d : TypeDef) : Decidable (d.WellDeclared ts) :=
  decidable_of_iff ((∀ u ∈ d.base.toList ++ d.interfaces, d.Owns u) ∧
      (∀ u ∈ d.base.toList ++ d.interfaces,
        u.definitionName?.isSome = true ∧ ts.isApplied u = true) ∧
      ∀ m ∈ d.members, ∀ u ∈ m.types, d.Owns u)
    ⟨fun h => ⟨h.1, h.2.1, h.2.2⟩, fun h => ⟨h.owned, h.applied, h.members⟩⟩

namespace TypeSystem

open Ty (Same)

/-- Whether every definition is well declared. -/
def WellDeclared (ts : TypeSystem) : Prop := ∀ n d, ts.find? n = some d → d.WellDeclared ts

theorem wellDeclared_of_definitions {r : Registry} {limit : Nat}
    (h : ∀ d ∈ r.definitions, d.WellDeclared (r.types limit)) : (r.types limit).WellDeclared :=
  fun _ d hd => h d (List.mem_of_find?_eq_some hd)

variable {ts : TypeSystem} {t u v : Ty} {f : TyParam → Option Ty}

theorem length_of_hasArity {n : String} {arity : Nat} (h : ts.hasArity n arity = true) {d : TypeDef}
    (hd : ts.find? n = some d) : arity = d.params.length := by
  rw [hasArity, hd, Option.all_some, beq_iff_eq] at h
  exact h.symm

/-! ### The hierarchy above an instance -/

theorem directSupertypes_subst (hts : ts.WellDeclared) (ht : ts.isApplied t = true)
    (f : TyParam → Option Ty) :
    ts.directSupertypes (t.subst f) = (ts.directSupertypes t).map (Ty.subst f) := by
  cases t with
  | named n args =>
    rw [Ty.subst_named]
    simp only [directSupertypes]
    split
    next d hd =>
      rw [List.map_map]
      refine List.map_congr_left fun u hu => ?_
      exact (((hts n d hd).owned u hu).subst_instantiate (length_of_hasArity ht hd) f).symm
    next => rfl
  | array elem => rfl
  | param p => cases ht

/-- What is directly above an applied type is applied too. -/
theorem DirectSupertype.isApplied (hts : ts.WellDeclared) (ht : ts.isApplied t = true)
    (h : ts.DirectSupertype t u) : ts.isApplied u = true := by
  have hdeclared {n : String} {args : List Ty} {d : TypeDef} (hd : ts.find? n = some d) {b : Ty}
      (hb : b ∈ d.base.toList ++ d.interfaces) :
      ts.isApplied (b.instantiate d.name args) = true := by
    obtain ⟨hnamed, happlied⟩ := (hts n d hd).applied b hb
    cases b with
    | named m bargs =>
      rw [Ty.instantiate, Ty.subst_named, TypeSystem.isApplied, List.length_map]
      exact happlied
    | _ => cases hnamed
  cases h with
  | base hd hb => exact hdeclared hd (List.mem_append_left _ (Option.mem_toList.mpr hb))
  | interface hd hi => exact hdeclared hd (List.mem_append_right _ hi)
  | enumerable elem => exact (Bool.and_eq_true_iff.mp ht).1
  | listInterface elem => exact (Bool.and_eq_true_iff.mp ht).2

theorem Climbs.isApplied (hts : ts.WellDeclared) (ht : ts.isApplied t = true) {n : Nat}
    (h : ts.Climbs t n u) : ts.isApplied u = true := by
  induction h with
  | start => exact ht
  | up _ hstep ih => exact hstep.isApplied hts ih

theorem Climbs.subst (hts : ts.WellDeclared) (ht : ts.isApplied t = true) {n : Nat}
    (h : ts.Climbs t n u) : ts.Climbs (t.subst f) n (u.subst f) := by
  induction h with
  | start => exact .start
  | up hu hstep ih =>
    refine .up ih (mem_directSupertypes.mp ?_)
    rw [directSupertypes_subst hts (hu.isApplied hts ht)]
    exact List.mem_map_of_mem (mem_directSupertypes.mpr hstep)

/-- A way up from an instance follows one from the type. -/
theorem Climbs.of_subst (hts : ts.WellDeclared) (ht : ts.isApplied t = true) {n : Nat}
    (h : ts.Climbs (t.subst f) n v) : ∃ u, ts.Climbs t n u ∧ u.subst f = v := by
  induction h with
  | start => exact ⟨t, .start, rfl⟩
  | up _ hstep ih =>
    obtain ⟨u, hu, rfl⟩ := ih
    have hmem := mem_directSupertypes.mpr hstep
    rw [directSupertypes_subst hts (hu.isApplied hts ht)] at hmem
    obtain ⟨w, hw, rfl⟩ := List.mem_map.mp hmem
    exact ⟨w, .up hu (mem_directSupertypes.mp hw), rfl⟩

theorem Reaches.subst (hts : ts.WellDeclared) (hf : NameBlind f) (ht : ts.isApplied t = true)
    (h : ts.Reaches t u) : ts.Reaches (t.subst f) (u.subst f) := by
  obtain ⟨n, v, hv, huv⟩ := h
  exact ⟨n, v.subst f, hv.subst hts ht, Ty.subst_congr_same hf.rel huv⟩

/-- No more types are above an instance than above the type. -/
theorem FinitelyAbove.subst (hts : ts.WellDeclared) (hf : NameBlind f) (ht : ts.isApplied t = true)
    (h : ts.FinitelyAbove t) : ts.FinitelyAbove (t.subst f) := by
  obtain ⟨types, htypes⟩ := h
  refine ⟨types.map (Ty.subst f), fun u hu => ?_⟩
  obtain ⟨n, v, hv, huv⟩ := hu
  obtain ⟨w, hw, rfl⟩ := hv.of_subst hts ht
  obtain ⟨s, hs, hws⟩ := List.contains_iff_exists_mem_beq.mp (htypes w ⟨n, hw.above⟩)
  rw [contains_congr_same (BEq.trans huv (Ty.subst_congr_same hf.rel hws))]
  exact contains_of_mem (List.mem_map_of_mem hs)

/-- A limit that a walk keeps to may be raised. -/
theorem isAssignable_of_le {k limit : Nat} {found : List Ty}
    (h : ts.closure? k [t] [] = some found) (hlimit : k ≤ limit) :
    (ts.withLimit limit).isAssignable u t = (ts.withLimit k).isAssignable u t := by
  rw [Bool.eq_iff_iff, isAssignable_iff h hlimit, isAssignable_iff h (Nat.le_refl k)]

theorem isObject_subst (h : u.isObject = true) : (u.subst f).isObject = true := by
  rw [Ty.eq_object_of_isObject h]
  rfl

/-! ### Base chains -/

theorem climb?_withLimit (ts : TypeSystem) (limit fuel : Nat) (t : Ty) (chain : List Ty) :
    (ts.withLimit limit).climb? fuel t chain = ts.climb? fuel t chain := by
  induction fuel generalizing t chain with
  | zero => rfl
  | succ fuel ih =>
    have hbase : (ts.withLimit limit).base? t = ts.base? t := by
      cases t <;> rfl
    simp only [climb?, ih, hbase]

/-- Each base that the climb takes up was queued by a type that is done with, so a bounded number of
turns is enough. -/
theorem isSome_climb? {types : List Ty} (htypes : ∀ u, ts.Reaches t u → types.contains u = true)
    {fuel : Nat} {seen : List Ty} (hu : ∃ n, ts.Climbs t n u) (hnew : seen.contains u = false)
    (hfuel : ts.pending seen types < fuel) : (ts.climb? fuel u (seen ++ [u])).isSome = true := by
  induction fuel generalizing u seen with
  | zero => omega
  | succ fuel ih =>
    simp only [climb?]
    split
    next => rfl
    next base hbase =>
      split
      next => rfl
      next hfresh =>
        obtain ⟨n, hn⟩ := hu
        have hmem := mem_directSupertypes_of_base? hbase
        have henter : ts.pending (seen ++ [u]) types + (ts.directSupertypes u).length ≤
            ts.pending seen types := pending_enter (htypes u ⟨n, hn.above⟩) hnew
        have hpos : 0 < (ts.directSupertypes u).length := List.length_pos_of_mem hmem
        exact ih ⟨n + 1, .up hn (mem_directSupertypes.mp hmem)⟩ (Bool.eq_false_iff.mpr hfresh)
          (by omega)

/-- Where finitely many types are above a type its base chain comes to an end. -/
theorem FinitelyAbove.exists_climb? (h : ts.FinitelyAbove t) :
    ∃ fuel found, ts.climb? fuel t [t] = some found := by
  obtain ⟨types, htypes⟩ := h
  have hsome : (ts.climb? (ts.pending [] types + 1) t ([] ++ [t])).isSome = true :=
    isSome_climb? htypes ⟨0, .start⟩ rfl (Nat.lt_succ_self _)
  exact ⟨_, Option.isSome_iff_exists.mp hsome⟩

/-- A climb keeps what is in its chain. -/
theorem exists_append_of_climb? {fuel : Nat} {chain found : List Ty}
    (h : ts.climb? fuel t chain = some found) : ∃ rest, found = chain ++ rest := by
  induction fuel generalizing t chain with
  | zero => cases h
  | succ fuel ih =>
    simp only [climb?] at h
    split at h
    next =>
      cases h
      exact ⟨[], (List.append_nil _).symm⟩
    next base _ =>
      split at h
      · cases h
        exact ⟨[], (List.append_nil _).symm⟩
      · obtain ⟨rest, rfl⟩ := ih h
        exact ⟨base :: rest, by rw [List.append_assoc, List.singleton_append]⟩

theorem base?_subst (hts : ts.WellDeclared) (ht : ts.isApplied t = true) (f : TyParam → Option Ty) :
    ts.base? (t.subst f) = (ts.base? t).map (Ty.subst f) := by
  cases t with
  | named n args =>
    rw [Ty.subst_named]
    change (ts.find? n).bind (fun d => d.base.bind fun b => some (b.instantiate d.name _)) =
      ((ts.find? n).bind fun d => d.base.bind fun b => some (b.instantiate d.name args)).map _
    cases hd : ts.find? n with
    | none => rfl
    | some d =>
      rw [Option.bind_some, Option.bind_some]
      cases hb : d.base with
      | none => rfl
      | some b =>
        have hmem : b ∈ d.base.toList ++ d.interfaces := by simp [hb]
        have howned := (hts n d hd).owned b hmem
        exact congrArg some (howned.subst_instantiate (length_of_hasArity ht hd) f).symm
  | array elem => rfl
  | param p => cases ht

theorem isApplied_of_base? (hts : ts.WellDeclared) (ht : ts.isApplied t = true)
    (h : ts.base? t = some u) : ts.isApplied u = true :=
  (mem_directSupertypes.mp (mem_directSupertypes_of_base? h)).isApplied hts ht

/-- Whether no two of the types apply definitions of one name. -/
def NamesDiffer (types : List Ty) : Prop := (types.map Ty.definitionName?).Nodup

instance (types : List Ty) : Decidable (NamesDiffer types) :=
  inferInstanceAs (Decidable (List.Nodup _))

/-- Applied types of different names are different in all instances. -/
theorem not_contains_subst {chain rest : List Ty} (hnames : NamesDiffer (chain ++ u :: rest))
    (hchain : ∀ s ∈ chain, ts.isApplied s = true) (hu : ts.isApplied u = true)
    (f : TyParam → Option Ty) : (chain.map (Ty.subst f)).contains (u.subst f) = false := by
  have hname {s : Ty} (hs : ts.isApplied s = true) :
      (s.subst f).definitionName? = s.definitionName? := by
    cases s with
    | param p => cases hs
    | _ => rfl
  rw [Bool.eq_false_iff]
  intro hcontains
  obtain ⟨w, hw, hsame⟩ := List.contains_iff_exists_mem_beq.mp hcontains
  obtain ⟨s, hs, rfl⟩ := List.mem_map.mp hw
  have hequal : u.definitionName? = s.definitionName? := by
    rw [← hname hu, ← hname (hchain s hs), Ty.definitionName?_congr hsame]
  unfold NamesDiffer at hnames
  rw [List.map_append, List.map_cons, List.nodup_append] at hnames
  exact hnames.2.2 _ (List.mem_map_of_mem hs) _ List.mem_cons_self hequal.symm

/-- A climb from an instance takes up the instances of what the climb from the type takes up, as
long as those are of different names, so that no two of them get equal. -/
theorem climb?_subst (hts : ts.WellDeclared) (hf : NameBlind f) {fuel : Nat} {chain found : List Ty}
    (ht : ts.isApplied t = true) (hchain : ∀ s ∈ chain, ts.isApplied s = true)
    (h : ts.climb? fuel t chain = some found) (hnames : NamesDiffer found) :
    ts.climb? fuel (t.subst f) (chain.map (Ty.subst f)) = some (found.map (Ty.subst f)) := by
  induction fuel generalizing t chain with
  | zero => cases h
  | succ fuel ih =>
    simp only [climb?] at h ⊢
    rw [base?_subst hts ht]
    cases hbase : ts.base? t with
    | none =>
      rw [hbase] at h
      cases h
      rfl
    | some base =>
      have hbaseApplied := isApplied_of_base? hts ht hbase
      simp only [hbase, Option.map_some] at h ⊢
      cases hc : chain.contains base with
      | true =>
        -- The base comes round again, and so does its instance.
        obtain ⟨s, hs, hsame⟩ := List.contains_iff_exists_mem_beq.mp hc
        have hagain : (chain.map (Ty.subst f)).contains (base.subst f) = true := by
          rw [contains_congr_same (Ty.subst_congr_same hf.rel hsame)]
          exact contains_of_mem (List.mem_map_of_mem hs)
        rw [hc, if_pos rfl] at h
        cases h
        rw [hagain, if_pos rfl]
      | false =>
        rw [hc, if_neg Bool.false_ne_true] at h
        obtain ⟨rest, rfl⟩ := exists_append_of_climb? h
        have hfresh : (chain.map (Ty.subst f)).contains (base.subst f) = false := by
          rw [List.append_assoc, List.singleton_append] at hnames
          exact not_contains_subst hnames hchain hbaseApplied f
        rw [hfresh, if_neg Bool.false_ne_true]
        have hchain' : ∀ s ∈ chain ++ [base], ts.isApplied s = true :=
          List.forall_mem_append.mpr ⟨hchain, List.forall_mem_singleton.mpr hbaseApplied⟩
        have hclimb := ih hbaseApplied hchain' h
        rwa [List.map_append, List.map_singleton] at hclimb

theorem baseChain_of_climb? {k limit : Nat} {found : List Ty}
    (h : ts.climb? k t [t] = some found) (hlimit : k ≤ limit) :
    (ts.withLimit limit).baseChain t = found := by
  have hclimb : (ts.withLimit limit).climb? limit t [t] = some found := by
    rw [climb?_withLimit, ts.climb?_mono hlimit h]
  rw [baseChain, baseChain?, withLimit_limit, hclimb, Option.getD_some]

/-! ### Members -/

theorem declaredMembers_subst (hts : ts.WellDeclared) (ht : ts.isApplied t = true)
    (f : TyParam → Option Ty) (name : String) (isStatic : Bool) :
    ts.declaredMembers (t.subst f) name isStatic =
      (ts.declaredMembers t name isStatic).map (Member.mapTypes (Ty.subst f)) := by
  cases t with
  | named n args =>
    rw [Ty.subst_named]
    simp only [declaredMembers]
    split
    next d hd =>
      rw [List.map_map]
      refine List.map_congr_left fun m hm => ?_
      have hmem : m ∈ d.members := (List.mem_filter.mp (List.mem_filter.mp hm).1).1
      simp only [Function.comp_apply, Member.instantiate, Member.mapTypes_mapTypes]
      exact Member.mapTypes_congr fun u hu =>
        (((hts n d hd).members m hmem u hu).subst_instantiate (length_of_hasArity ht hd) f).symm
    next => rfl
  | array elem => rfl
  | param p => cases ht

/-- The members of an instance are those of the type, in the same order, if the chain of its bases
consists of the instances of those of the type. -/
theorem findMembers_subst (hts : ts.WellDeclared) (ht : ts.isApplied t = true)
    (hchain : ts.baseChain (t.subst f) = (ts.baseChain t).map (Ty.subst f))
    (howners : ∀ s ∈ ts.baseChain t, ts.isApplied s = true) (name : String) (scope : MemberScope) :
    ts.findMembers (t.subst f) name scope =
      (ts.findMembers t name scope).map (Member.mapTypes (Ty.subst f)) := by
  have hdeclared {owners : List Ty} (h : ∀ s ∈ owners, ts.isApplied s = true) :
      (owners.map (Ty.subst f)).flatMap (fun s => ts.declaredMembers s name scope.isStatic) =
        (owners.flatMap fun s => ts.declaredMembers s name scope.isStatic).map
          (Member.mapTypes (Ty.subst f)) := by
    rw [List.flatMap_map, List.map_flatMap]
    exact List.flatMap_congr fun s hs => declaredMembers_subst hts (h s hs) f name scope.isStatic
  cases t with
  | named n args =>
    have hself := hdeclared (List.forall_mem_singleton.mpr ht)
    rw [List.map_singleton, Ty.subst_named] at hself
    rw [Ty.subst_named] at hchain ⊢
    simp only [findMembers]
    split
    · rw [hchain]
      exact hdeclared howners
    · exact hself
  | array elem =>
    change ts.findMembers (.array (elem.subst f)) name scope = _
    simp only [findMembers]
    split <;> rfl
  | param p => cases ht

/-- What holds of a type holds of its instances. Where definitions mention only their own parameters
and apply others at their arity, what a type converts to its instance converts to, instantiated, and
if its base chain names no definition twice then an instance has the members of the type in their
order, with their types instantiated. -/
theorem queries_subst (hts : ts.WellDeclared) (hf : NameBlind f) (ht : ts.isApplied t = true)
    (hfinite : ts.FinitelyAbove t) :
    ∃ bound, ∀ limit, bound ≤ limit →
      (∀ u, (ts.withLimit limit).isAssignable u t = true →
        (ts.withLimit limit).isAssignable (u.subst f) (t.subst f) = true) ∧
      (NamesDiffer ((ts.withLimit limit).baseChain t) → ∀ name scope,
        (ts.withLimit limit).findMembers (t.subst f) name scope =
          ((ts.withLimit limit).findMembers t name scope).map (Member.mapTypes (Ty.subst f))) := by
  obtain ⟨i, _, hi⟩ := finitelyAbove_iff.mp hfinite
  obtain ⟨j, _, hj⟩ := finitelyAbove_iff.mp (hfinite.subst hts hf ht)
  obtain ⟨k, found, hk⟩ := hfinite.exists_climb?
  refine ⟨max i (max j k), fun limit hlimit => ⟨fun u hu => ?_, fun hnames name scope => ?_⟩⟩
  · rw [isAssignable_iff hi (by omega)] at hu
    rw [isAssignable_iff hj (by omega)]
    rcases hu with hobject | hreached
    · exact .inl (isObject_subst hobject)
    · exact .inr (hreached.subst hts hf ht)
  · have hself : ∀ s ∈ [t], ts.isApplied s = true := List.forall_mem_singleton.mpr ht
    have hchain : (ts.withLimit limit).baseChain t = found := baseChain_of_climb? hk (by omega)
    rw [hchain] at hnames
    have hinstance : (ts.withLimit limit).baseChain (t.subst f) = found.map (Ty.subst f) :=
      baseChain_of_climb? (climb?_subst hts hf ht hself hk hnames) (by omega)
    have howners := mem_of_mem_climb? (fun _ _ hs hb => isApplied_of_base? hts hs hb) hk ht hself
    -- The limit changes neither the definitions nor what is asked of them.
    have htsLimit : (ts.withLimit limit).WellDeclared := fun n d hd =>
      ⟨(hts n d hd).owned, (hts n d hd).applied, (hts n d hd).members⟩
    exact findMembers_subst htsLimit ht (by rw [hchain, hinstance]) (hchain ▸ howners) name scope

namespace Sample

/-- A class `Entries<K, V>: IEnumerable<V>` with a method `at(key: K): V`. -/
def entries : TypeDef :=
  let key : Ty := .param ⟨"Entries", 0, "K"⟩
  let value : Ty := .param ⟨"Entries", 1, "V"⟩
  { TypeDef.new "Entries" .classType with
    params := [⟨"K", .none, []⟩, ⟨"V", .none, []⟩]
    interfaces := [.enumerable value]
    members := [.method ⟨"at", [⟨"key", key⟩], value, false, fun _ _ => return .null⟩] }

/-- A class `Index<T>: Entries<string, List<T>>`. -/
def index : TypeDef :=
  { TypeDef.new "Index" .classType with
    params := [⟨"T", .none, []⟩]
    base := some (.named "Entries" [.string, .list (.param ⟨"Index", 0, "T"⟩)]) }

def indexes : TypeSystem := Registry.types ⟨Registry.builtin.definitions ++ [entries, index]⟩ 8

/-- An array is a sequence of keys and values here, and a sequence has its values. -/
def keyed : TypeSystem :=
  Registry.types ⟨[{ TypeDef.new "Valued" .interfaceType with params := [⟨"T", .none, []⟩] },
    { TypeDef.new "IEnumerable" .interfaceType with
      params := [⟨"K", .none, []⟩, ⟨"V", .none, []⟩]
      interfaces := [one "Valued" (.param ⟨"IEnumerable", 1, "V"⟩)] }]⟩ 8

/-- Every parameter is an integer. -/
def allInt : TyParam → Option Ty := fun _ => some .int

theorem wellDeclared_indexes : indexes.WellDeclared := wellDeclared_of_definitions (by decide)

end Sample

/-- An `Index<T>` is a sequence of `List<T>` and has the method of `Entries<string, List<T>>`. -/
theorem queries_subst_index :
    Sample.indexes.WellDeclared ∧ NameBlind Sample.allInt ∧
    Sample.indexes.isApplied (Sample.one "Index" (.param ⟨"Item", 0, "T"⟩)) = true ∧
    Sample.indexes.FinitelyAbove (Sample.one "Index" (.param ⟨"Item", 0, "T"⟩)) ∧
    ∃ bound, ∀ limit, bound ≤ limit →
      (Sample.indexes.withLimit limit).isAssignable (.enumerable (.list .int))
        (Sample.one "Index" .int) = true ∧
      ((Sample.indexes.withLimit limit).findMembers (Sample.one "Index" .int) "at" .instances).map
        Member.types = [[.list .int, .string]] := by
  let item : Ty := .param ⟨"Item", 0, "T"⟩
  have hblind : NameBlind Sample.allInt := fun _ _ _ => rfl
  have hfinite : Sample.indexes.FinitelyAbove (Sample.one "Index" item) :=
    finitelyAbove_iff.mpr ⟨8, _, rfl⟩
  obtain ⟨bound, hbound⟩ := queries_subst Sample.wellDeclared_indexes hblind rfl hfinite
  refine ⟨Sample.wellDeclared_indexes, hblind, rfl, hfinite, max bound 8, fun limit hlimit => ?_⟩
  obtain ⟨hassignable, hmembers⟩ := hbound limit (by omega)
  have hconverts : (Sample.indexes.withLimit limit).isAssignable (.enumerable (.list item))
      (Sample.one "Index" item) = true :=
    (isAssignable_of_le (k := 8) rfl (by omega)).trans rfl
  have hchain : (Sample.indexes.withLimit limit).baseChain (Sample.one "Index" item) =
      [Sample.one "Index" item, .named "Entries" [.string, .list item]] :=
    baseChain_of_climb? (k := 8) rfl (by omega)
  have hdeclared : ((Sample.indexes.withLimit limit).findMembers (Sample.one "Index" item) "at"
      .instances).map Member.types = [[.list item, .string]] := by
    change List.map Member.types (List.flatMap _ ((Sample.indexes.withLimit limit).baseChain
      (Sample.one "Index" item))) = _
    rw [hchain]
    rfl
  refine ⟨hassignable _ hconverts, ?_⟩
  have hinstance := hmembers (by rw [hchain]; decide) "at" .instances
  have htypes : Member.types ∘ Member.mapTypes (Ty.subst Sample.allInt) =
      List.map (Ty.subst Sample.allInt) ∘ Member.types :=
    funext (Member.types_mapTypes _)
  have hint : Sample.one "Index" .int = (Sample.one "Index" item).subst Sample.allInt := rfl
  rw [hint, hinstance, List.map_map, htypes, ← List.map_map, hdeclared]
  rfl

/-- Where sequences are declared with two parameters the interface of an array is not at its arity.
The second parameter is left over in the hierarchy above every array, where an instance of the array
does not reach it. -/
theorem not_queries_subst_array :
    Sample.keyed.WellDeclared ∧ NameBlind Sample.allInt ∧ (Ty.array .int).isParam = false ∧
    Sample.keyed.isApplied (.array .int) = false ∧ Sample.keyed.FinitelyAbove (.array .int) ∧
    ∀ limit, 8 ≤ limit →
      (Sample.keyed.withLimit limit).isAssignable
        (Sample.one "Valued" (.param ⟨"IEnumerable", 1, "V"⟩)) (.array .int) = true ∧
      (Sample.keyed.withLimit limit).isAssignable
        ((Sample.one "Valued" (.param ⟨"IEnumerable", 1, "V"⟩)).subst Sample.allInt)
        ((Ty.array .int).subst Sample.allInt) = false := by
  have hwell : Sample.keyed.WellDeclared := wellDeclared_of_definitions (by decide)
  have hfinite : Sample.keyed.FinitelyAbove (.array .int) := finitelyAbove_iff.mpr ⟨8, _, rfl⟩
  refine ⟨hwell, fun _ _ _ => rfl, rfl, rfl, hfinite, fun limit hlimit => ⟨?_, ?_⟩⟩
  · exact (isAssignable_of_le (k := 8) rfl hlimit).trans rfl
  · exact (isAssignable_of_le (k := 8) rfl hlimit).trans rfl

end TypeSystem

end Introspect

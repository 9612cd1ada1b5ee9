import Introspect.Definition.Accessor
import Introspect.Proofs.Ty.Instantiation
import Introspect.Registry

/-!
The spelling of parameters. Equality of types is blind to it, but texts show it, so a definition
gets one spelling when it is registered: each of its own parameters has the declared name wherever
it is mentioned. Nothing else about the definition changes, and a second registration changes
nothing.
-/

namespace Introspect

namespace Ty

/-- The type with its parameters renamed. -/
def respell (f : TyParam → String) (t : Ty) : Ty :=
  t.subst fun p => some (.param { p with name := f p })

theorem occurrences_respell (f : TyParam → String) (t : Ty) :
    (t.respell f).occurrences = t.occurrences.map fun p => { p with name := f p } := by
  unfold respell
  induction t using ind with
  | named n as ih =>
    rw [subst_named, occurrences_named, occurrences_named, List.map_flatMap, List.flatMap_map]
    exact List.flatMap_congr ih
  | array a ih => exact ih
  | param p => rfl

theorem respell_respell (f g : TyParam → String) (t : Ty) :
    (t.respell f).respell g = t.respell fun p => g { p with name := f p } := subst_subst _ _ t

end Ty

namespace TypeDef

/-! ### The types of a definition -/

/-- All types that a definition is declared with: in constraints, above it and in its members. -/
def types (d : TypeDef) : List Ty :=
  d.params.flatMap (·.constraints) ++ d.base.toList ++ d.interfaces ++
    d.members.flatMap Member.types

def mapTypes (f : Ty → Ty) (d : TypeDef) : TypeDef :=
  { d with
    params := d.params.map fun p => { p with constraints := p.constraints.map f }
    base := d.base.map f
    interfaces := d.interfaces.map f
    members := d.members.map (Member.mapTypes f) }

theorem types_mapTypes (f : Ty → Ty) (d : TypeDef) : (d.mapTypes f).types = d.types.map f := by
  have hbase : (d.base.map f).toList = d.base.toList.map f := by
    cases d.base <;> rfl
  simp only [types, mapTypes, hbase, List.map_append, List.map_flatMap, List.flatMap_map,
    Member.types_mapTypes]

theorem mapTypes_mapTypes (f g : Ty → Ty) (d : TypeDef) :
    (d.mapTypes f).mapTypes g = d.mapTypes fun t => g (f t) := by
  simp [mapTypes, Member.mapTypes_mapTypes, Function.comp_def]

/-! ### Spellings -/

/-- The declared name of an own parameter. Any other parameter keeps the name that it has. -/
def spelling (d : TypeDef) (p : TyParam) : String :=
  if p.owner == d.name then (d.params[p.index]?.map (·.name)).getD p.name else p.name

/-- The definition with the names of its own parameters left out wherever they are mentioned. -/
def withoutOwnNames (d : TypeDef) : TypeDef :=
  d.mapTypes (Ty.respell fun p =>
    if p.owner == d.name && d.params[p.index]?.isSome then "" else p.name)

variable {d : TypeDef}

theorem getElem?_selfTy_args (i : Nat) :
    d.selfTy.args[i]? = d.params[i]?.map fun p => .param ⟨d.name, i, p.name⟩ := by
  rw [selfTy, Ty.args, List.getElem?_map]
  by_cases hi : i < d.params.length
  · rw [List.getElem?_range hi, Option.map_some, paramTy, param, List.getElem?_eq_getElem hi]
    rfl
  · rw [List.getElem?_eq_none (by simpa using hi), List.getElem?_eq_none (by simpa using hi)]
    rfl

theorem instantiate_selfTy (t : Ty) :
    t.instantiate d.name d.selfTy.args = t.respell d.spelling := by
  refine Ty.subst_congr fun p _ => ?_
  obtain ⟨owner, index, name⟩ := p
  simp only [Ty.subst, spelling]
  by_cases howner : (owner == d.name) = true
  · rw [if_pos howner, if_pos howner, getElem?_selfTy_args, ← beq_iff_eq.mp howner]
    cases d.params[index]? <;> rfl
  · rw [if_neg howner, if_neg howner]
    rfl

theorem normalized_eq_mapTypes : d.normalized = d.mapTypes (Ty.respell d.spelling) := by
  have hrespell : Ty.instantiate d.name d.selfTy.args = Ty.respell d.spelling :=
    funext instantiate_selfTy
  rw [← hrespell]
  rfl

theorem spelling_normalized : d.normalized.spelling = d.spelling := by
  funext p
  simp only [spelling, normalized, List.getElem?_map, Option.map_map, Function.comp_def]

/-- A spelling that is settled stays. -/
theorem spelling_spelling (p : TyParam) :
    d.spelling { p with name := d.spelling p } = d.spelling p := by
  simp only [spelling]
  by_cases howner : (p.owner == d.name) = true
  · rw [if_pos howner, if_pos howner]
    cases d.params[p.index]? <;> rfl
  · rw [if_neg howner, if_neg howner]

theorem spelling_eq_name {p : TyParam} {g : GenericParam} (howner : p.owner = d.name)
    (hg : d.params[p.index]? = some g) : d.spelling p = g.name := by
  rw [spelling, if_pos (beq_iff_eq.mpr howner), hg, Option.map_some, Option.getD_some]

/-! ### The stored definition -/

theorem normalized_normalized : d.normalized.normalized = d.normalized := by
  rw [normalized_eq_mapTypes, spelling_normalized, normalized_eq_mapTypes, mapTypes_mapTypes]
  refine congrArg (mapTypes · d) (funext fun t => ?_)
  rw [Ty.respell_respell]
  exact congrArg (Ty.respell · t) (funext spelling_spelling)

/-- Own parameters have their declared names wherever they occur. -/
theorem name_of_mem_normalized {t : Ty} (ht : t ∈ d.normalized.types) {p : TyParam}
    (hp : p ∈ t.occurrences) (howner : p.owner = d.name) {g : GenericParam}
    (hg : d.params[p.index]? = some g) : p.name = g.name := by
  rw [normalized_eq_mapTypes, types_mapTypes] at ht
  obtain ⟨u, -, rfl⟩ := List.mem_map.mp ht
  rw [Ty.occurrences_respell] at hp
  obtain ⟨q, -, rfl⟩ := List.mem_map.mp hp
  exact spelling_eq_name howner hg

theorem withoutOwnNames_normalized : d.normalized.withoutOwnNames = d.withoutOwnNames := by
  have hown (p : TyParam) : d.normalized.params[p.index]?.isSome = d.params[p.index]?.isSome := by
    rw [normalized, List.getElem?_map, Option.isSome_map]
  simp only [withoutOwnNames, hown]
  rw [normalized_eq_mapTypes, mapTypes_mapTypes]
  refine congrArg (mapTypes · d) (funext fun t => ?_)
  rw [Ty.respell_respell]
  refine congrArg (Ty.respell · t) (funext fun p => ?_)
  -- What is not left out is no declared parameter, and that keeps its name.
  change (if (p.owner == d.name && d.params[p.index]?.isSome) = true then "" else d.spelling p) = _
  split
  next => rfl
  next hown =>
    rw [spelling]
    split
    next howner =>
      rw [howner, Bool.true_and, Option.not_isSome_iff_eq_none] at hown
      rw [hown]
      rfl
    next => rfl

end TypeDef

namespace Registry

variable {r : Registry} {d : TypeDef}

/-- A definition that is entered is the one of its name. -/
theorem find?_insert_self : (r.insert d).find? d.name = some d := by
  rw [insert]
  split
  next hknown =>
    obtain ⟨e, he⟩ := Option.isSome_iff_exists.mp hknown
    have hname : (fun e : TypeDef => (if e.name == d.name then d else e).name == d.name) =
        fun e => e.name == d.name := by
      funext e
      split
      next h => rw [h, beq_self_eq_true]
      next => rfl
    have hfound : (e.name == d.name) = true :=
      List.find?_some (p := fun e : TypeDef => e.name == d.name) he
    rw [find?, List.find?_map, Function.comp_def, hname]
    change (r.find? d.name).map _ = _
    rw [he, Option.map_some, if_pos hfound]
  next hnew =>
    have hnone : r.find? d.name = none := Option.not_isSome_iff_eq_none.mp hnew
    rw [find?] at hnone ⊢
    rw [List.find?_append, hnone, Option.none_or]
    exact List.find?_cons_of_pos (beq_self_eq_true d.name)

theorem insert_insert_self : (r.insert d).insert d = r.insert d := by
  have hknown : (r.insert d).contains d.name = true := by
    rw [contains, find?_insert_self]
    rfl
  have hagain : (r.insert d).insert d =
      ⟨(r.insert d).definitions.map fun e => if e.name == d.name then d else e⟩ := if_pos hknown
  rw [hagain]
  refine congrArg Registry.mk ((List.map_congr_left fun e he => ?_).trans (List.map_id _))
  -- The only definition of that name in the table is the one that was entered.
  split
  next hname =>
    rw [insert] at he
    split at he
    next =>
      obtain ⟨e', -, rfl⟩ := List.mem_map.mp he
      split at hname
      next h => rw [if_pos h, id]
      next h => exact absurd hname h
    next hnew =>
      rcases List.mem_append.mp he with he | he
      · have hnone : r.find? d.name = none := Option.not_isSome_iff_eq_none.mp hnew
        exact absurd hname (List.find?_eq_none.mp hnone e he)
      · exact (List.mem_singleton.mp he).symm
  next => rfl

/-- Of a registered definition every own parameter has its declared name wherever a constraint, the
base, an interface or a member mentions it. All else about the definition is as it was given, and
to register what is stored changes nothing. -/
theorem register_spells (r : Registry) (d : TypeDef) :
    ∃ stored, (r.register d).find? d.name = some stored ∧
      (∀ t ∈ stored.types, ∀ p ∈ t.occurrences, p.owner = d.name →
        ∀ g, d.params[p.index]? = some g → p.name = g.name) ∧
      stored.withoutOwnNames = d.withoutOwnNames ∧
      stored.normalized = stored ∧ (r.register d).register stored = r.register d := by
  have hstored : (r.insert d.normalized).find? d.name = some d.normalized := find?_insert_self
  refine ⟨d.normalized, hstored, ?_, TypeDef.withoutOwnNames_normalized,
    TypeDef.normalized_normalized, ?_⟩
  · intro t ht p hp howner g hg
    exact TypeDef.name_of_mem_normalized ht hp howner hg
  · rw [register, register, TypeDef.normalized_normalized, insert_insert_self]

namespace Sample

/-- A graph that mentions its parameters before they are declared, and besides them a third one that
never is and one of another definition. -/
def graph : TypeDef :=
  let start := TypeDef.new "Graph" .classType
  { start with
    params := [⟨"Node", .none, [.list (start.paramTy 1)]⟩, ⟨"Edge", .none, []⟩]
    base := some (.enumerable (.array (start.paramTy 0)))
    members := [
      .field ⟨"tree", .list (.param ⟨"Tree", 0, "T0"⟩), false, .record⟩,
      .method ⟨"walk", [⟨"from", start.paramTy 0⟩], .list (start.paramTy 2), false,
        Accessor.null⟩] }

end Sample

theorem register_spells_graph :
    ∃ stored, (builtin.register Sample.graph).find? "Graph" = some stored ∧
      stored.types.flatMap Ty.occurrences = [⟨"Graph", 1, "Edge"⟩, ⟨"Graph", 0, "Node"⟩,
        ⟨"Tree", 0, "T0"⟩, ⟨"Graph", 2, "T2"⟩, ⟨"Graph", 0, "Node"⟩] ∧
      (∀ name, ⟨"Graph", 1, name⟩ ∈ stored.types.flatMap Ty.occurrences → name = "Edge") ∧
      (builtin.register Sample.graph).register stored = builtin.register Sample.graph := by
  obtain ⟨stored, hstored, hnames, -, -, hagain⟩ := register_spells builtin Sample.graph
  have hknown : stored = Sample.graph.normalized := Option.some.inj (hstored.symm.trans rfl)
  refine ⟨stored, hstored, ?_, fun name hp => ?_, hagain⟩
  · rw [hknown]
    rfl
  · obtain ⟨t, ht, hp⟩ := List.mem_flatMap.mp hp
    exact hnames t ht _ hp rfl _ rfl

end Registry

end Introspect

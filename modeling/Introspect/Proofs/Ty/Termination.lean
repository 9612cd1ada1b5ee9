import Introspect.Proofs.Ty.Instantiation
import Mathlib.Data.List.Sections

/-!
Hierarchies that do not grow. Where declared bases and interfaces are applied to nothing but bare
parameters and closed types, a walk up moves arguments around and makes no new ones. All that it can
come to is a declared supertype with arguments out of a finite stock, so it ends, also where the
declarations go round in a circle.
-/

namespace Introspect

namespace Ty

/-- Whether a type is a bare parameter of the definition `owner` or has no parameters. -/
def isPlainArgument (owner : String) : Ty → Bool
  | .param p => p.owner == owner
  | t => !t.isOpen

/-- Whether a type applies a definition to bare parameters of `owner` and closed types alone. -/
def isFlat (owner : String) : Ty → Bool
  | .named _ args => args.all (isPlainArgument owner)
  | _ => false

/-- A plain argument is replaced by an argument of the instance, or it stays. -/
theorem instantiate_of_isPlainArgument {owner : String} {a : Ty}
    (ha : a.isPlainArgument owner = true) (args : List Ty) :
    a.instantiate owner args ∈ args ∨ a.instantiate owner args = a := by
  cases a with
  | param p =>
    rw [isPlainArgument] at ha
    simp only [instantiate, subst, ha, if_true]
    cases harg : args[p.index]? with
    | none => exact .inr rfl
    | some u => exact .inl (List.mem_of_getElem? harg)
  | _ =>
    have hclosed := Bool.not_eq_true' _ ▸ ha
    exact .inr (subst_of_closed hclosed _)

end Ty

namespace Registry

/-- All bases and interfaces that are declared. -/
def declaredSupertypes (r : Registry) : List Ty :=
  r.definitions.flatMap fun d => d.base.toList ++ d.interfaces

/-- Whether all bases and interfaces are named types, applied to bare parameters of their definition
and closed types alone. They may lead round in a circle. -/
def FlatHierarchy (r : Registry) : Prop :=
  ∀ d ∈ r.definitions, ∀ u ∈ d.base.toList ++ d.interfaces, u.isFlat d.name = true

instance (r : Registry) : Decidable r.FlatHierarchy :=
  inferInstanceAs (Decidable (∀ d ∈ r.definitions, _))

/-- The arguments that a walk up can come to if it starts with these. -/
def stock (r : Registry) (args : List Ty) : List Ty :=
  args ++ r.declaredSupertypes.flatMap Ty.args

/-- A named type with each choice of as many arguments as it has. -/
def applications (arguments : List Ty) : Ty → List Ty
  | .named n args => (args.map fun _ => arguments).sections.map (.named n)
  | _ => []

/-- Whether a type is a named one that has all its arguments from a stock. -/
def Supplied (arguments : List Ty) : Ty → Prop
  | .named _ args => ∀ a ∈ args, a ∈ arguments
  | _ => False

variable {r : Registry} {start : List Ty}

/-- A declared supertype gets its arguments from the stock if the type below has its own from there:
an argument is moved up, or it was declared. -/
theorem instantiate_supertype (hr : r.FlatHierarchy) {d : TypeDef} (hd : d ∈ r.definitions) {b : Ty}
    (hb : b ∈ d.base.toList ++ d.interfaces) {args : List Ty}
    (hargs : ∀ a ∈ args, a ∈ r.stock start) :
    b.instantiate d.name args ∈ applications (r.stock start) b ∧
      Supplied (r.stock start) (b.instantiate d.name args) := by
  have hflat := hr d hd b hb
  cases b with
  | named m bs =>
    have hstock : ∀ a ∈ bs, a.instantiate d.name args ∈ r.stock start := by
      intro a ha
      rcases Ty.instantiate_of_isPlainArgument (List.all_eq_true.mp hflat a ha) args with h | h
      · exact hargs _ h
      · rw [h]
        have hdeclared : .named m bs ∈ r.declaredSupertypes := List.mem_flatMap.mpr ⟨d, hd, hb⟩
        exact List.mem_append_right _ (List.mem_flatMap.mpr ⟨_, hdeclared, ha⟩)
    rw [Ty.instantiate, Ty.subst_named]
    refine ⟨List.mem_map_of_mem (List.mem_sections.mpr ?_), List.forall_mem_map.mpr hstock⟩
    rw [List.forall₂_map_left_iff, List.forall₂_map_right_iff, List.forall₂_same]
    exact hstock
  | _ => cases hflat

theorem supplied_of_directSupertype (hr : r.FlatHierarchy) {limit : Nat} {s u : Ty}
    (hs : Supplied (r.stock start) s) (hu : (r.types limit).DirectSupertype s u) :
    u ∈ r.declaredSupertypes.flatMap (applications (r.stock start)) ∧
      Supplied (r.stock start) u := by
  have hdeclared {d : TypeDef} (hd : d ∈ r.definitions) {b : Ty}
      (hb : b ∈ d.base.toList ++ d.interfaces) {args : List Ty}
      (hargs : ∀ a ∈ args, a ∈ r.stock start) :
      b.instantiate d.name args ∈ r.declaredSupertypes.flatMap (applications (r.stock start)) ∧
        Supplied (r.stock start) (b.instantiate d.name args) := by
    obtain ⟨happlied, hsupplied⟩ := instantiate_supertype hr hd hb hargs
    have hlisted : b ∈ r.declaredSupertypes := List.mem_flatMap.mpr ⟨d, hd, hb⟩
    exact ⟨List.mem_flatMap.mpr ⟨b, hlisted, happlied⟩, hsupplied⟩
  cases hu with
  | base hd hb =>
    exact hdeclared (List.mem_of_find?_eq_some hd)
      (List.mem_append_left _ (Option.mem_toList.mpr hb)) hs
  | interface hd hi =>
    exact hdeclared (List.mem_of_find?_eq_some hd) (List.mem_append_right _ hi) hs
  | _ => cases hs

/-- All that is above a named type is the type itself and applications of declared supertypes. -/
theorem finitelyAbove_named (hr : r.FlatHierarchy) (limit : Nat) (n : String) (args : List Ty) :
    (r.types limit).FinitelyAbove (.named n args) := by
  have hclimbs {k : Nat} {u : Ty} (hu : (r.types limit).Climbs (.named n args) k u) :
      u ∈ .named n args :: r.declaredSupertypes.flatMap (applications (r.stock args)) ∧
        Supplied (r.stock args) u := by
    induction hu with
    | start => exact ⟨List.mem_cons_self, fun a ha => List.mem_append_left _ ha⟩
    | up _ hstep ih =>
      obtain ⟨hmem, hsupplied⟩ := supplied_of_directSupertype hr ih.2 hstep
      exact ⟨List.mem_cons_of_mem _ hmem, hsupplied⟩
  refine ⟨.named n args :: r.declaredSupertypes.flatMap (applications (r.stock args)), ?_⟩
  rintro u ⟨k, v, hv, huv⟩
  rw [TypeSystem.contains_congr_same huv]
  exact TypeSystem.contains_of_mem (hclimbs hv).1

theorem finitelyAbove (hr : r.FlatHierarchy) (limit : Nat) (t : Ty) :
    (r.types limit).FinitelyAbove t := by
  cases t with
  | named n args => exact finitelyAbove_named hr limit n args
  | array elem =>
    refine .of_direct fun u hu => ?_
    cases hu with
    | enumerable => exact finitelyAbove_named hr limit _ _
    | listInterface => exact finitelyAbove_named hr limit _ _
  | param p => exact .of_direct nofun

/-- In a flat hierarchy the walks to the supertypes and to the bases of every type end, each with
one answer under all limits that are high enough. -/
theorem walks_end (hr : r.FlatHierarchy) (t : Ty) :
    ∃ bound sups chain, ∀ limit, bound ≤ limit →
      (r.types limit).supertypes? t = some sups ∧ (r.types limit).baseChain? t = some chain := by
  have hfinite := finitelyAbove hr 0 t
  obtain ⟨k, found, hfound⟩ := TypeSystem.finitelyAbove_iff.mp hfinite
  obtain ⟨m, chain, hchain⟩ := hfinite.exists_climb?
  refine ⟨max k m, if t.isParam || found.contains .object then found else found ++ [.object], chain,
    fun limit hlimit => ⟨?_, ?_⟩⟩
  · have hwalk : (r.types limit).closure? limit [t] [] = some found :=
      (TypeSystem.closure?_withLimit (r.types 0) limit limit [t] []).trans
        ((r.types 0).closure?_mono (by omega) hfound)
    exact congrArg (Option.map _) hwalk
  · exact (TypeSystem.climb?_withLimit (r.types 0) limit limit t [t]).trans
      ((r.types 0).climb?_mono (by omega) hchain)

namespace Sample

/-- Two generic classes that turn round the arguments of each other, so that each has itself among
its bases, with its arguments exchanged. -/
def turning : Registry :=
  let a := Ty.param ⟨"Pair", 0, "A"⟩
  let b := Ty.param ⟨"Pair", 1, "B"⟩
  let x := Ty.param ⟨"Cell", 0, "X"⟩
  ⟨Registry.builtin.definitions ++
    [{ TypeDef.new "Pair" .classType with
        params := [⟨"A", .none, []⟩, ⟨"B", .none, []⟩]
        base := some (.named "Pair" [b, a])
        interfaces := [.named "Cell" [b], .enumerable a] },
      { TypeDef.new "Cell" .interfaceType with
        params := [⟨"X", .none, []⟩]
        interfaces := [.named "Pair" [x, .list .string]] }]⟩

end Sample

theorem walks_end_turning :
    Sample.turning.FlatHierarchy ∧ ∀ t, ∃ bound sups chain, ∀ limit, bound ≤ limit →
      (Sample.turning.types limit).supertypes? t = some sups ∧
        (Sample.turning.types limit).baseChain? t = some chain := by
  have hflat : Sample.turning.FlatHierarchy := by decide
  exact ⟨hflat, walks_end hflat⟩

/-- The walk from a pair comes round to it, by way of pairs of what it was given and of what is
declared. -/
example :
    ((Sample.turning.types 40).supertypes (.named "Pair" [.int, .bool])).length = 14 ∧
    (Sample.turning.types 40).baseChain (.named "Pair" [.int, .bool]) =
      [.named "Pair" [.int, .bool], .named "Pair" [.bool, .int]] :=
  ⟨rfl, rfl⟩

end Registry

end Introspect

import Introspect.Proofs.Except
import Introspect.Proofs.Generic.CycleSearch
import Introspect.Proofs.Generic.Inference

/-!
Generic types on their way from a partial application to a closed type. A type starts with the
arguments that mention no parameter of its own, takes up more of them one by one, and is closed once
inference knows all. It is solved exactly when what was inferred passes the checks of all its
parameters.
-/

namespace Introspect

/-- Arguments each of which is closed or the definition's own parameter at its own position. -/
def TypeDef.PartialArguments (d : TypeDef) (sargs : List Ty) : Prop :=
  ∀ (i : Nat) (a : Ty), sargs[i]? = some a →
    a.isOpen = false ∨ ∃ p, a = .param p ∧ p.owner = d.name ∧ p.index = i

/-- A partial application becomes the full one whose arguments have its closed ones. -/
theorem TypeDef.PartialArguments.instantiate {d : TypeDef} {sargs args : List Ty}
    (hpartial : d.PartialArguments sargs) (hlen : sargs.length = args.length)
    (hgiven : ∀ (i : Nat) (a : Ty), sargs[i]? = some a → a.isOpen = false → args[i]? = some a) :
    (Ty.named d.name sargs).instantiate d.name args = .named d.name args := by
  rw [TypeDef.instantiate_eq_subst, Ty.subst_named]
  refine congrArg (Ty.named d.name) (List.ext_getElem? fun i => ?_)
  rw [List.getElem?_map]
  cases ha : sargs[i]? with
  | none =>
    rw [List.getElem?_eq_none_iff] at ha
    exact (List.getElem?_eq_none (hlen ▸ ha)).symm
  | some a =>
    rcases hpartial i a ha with hclosed | ⟨p, rfl, howner, rfl⟩
    · rw [Option.map_some, Ty.subst_of_closed hclosed]
      exact (hgiven i a ha hclosed).symm
    · have hlt : p.index < args.length := hlen ▸ (List.getElem?_eq_some_iff.mp ha).1
      have hargs := List.getElem?_eq_getElem hlt
      have hassigned := TypeDef.assignment_eq_some.mpr ⟨howner, hargs⟩
      rw [hargs, Option.map_some, Ty.subst, hassigned, Option.getD_some]

namespace OpenType

variable {ts : TypeSystem} {d : TypeDef}

/-! ### The start -/

/-- A definition with the arguments that a type has for it. -/
def initial (d : TypeDef) (args : List Ty) : OpenType :=
  ⟨d, (List.range d.params.length).map (knownArgument? d args)⟩

theorem length_initial (d : TypeDef) (args : List Ty) :
    (initial d args).arguments.length = d.params.length := by
  simp only [initial, List.length_map, List.length_range]

theorem knownArgument?_eq_some {args : List Ty} {i : Nat} {t : Ty} :
    knownArgument? d args i = some t ↔
      args[i]? = some t ∧ ∀ q ∈ t.occurrences, q.owner ≠ d.name := by
  simp only [knownArgument?, Option.filter_eq_some_iff, Bool.not_eq_true', List.any_eq_false,
    beq_iff_eq]

theorem initial_eq_some {args : List Ty} {i : Nat} {t : Ty} :
    (initial d args).arguments[i]?.join = some t ↔
      i < d.params.length ∧ args[i]? = some t ∧ ∀ q ∈ t.occurrences, q.owner ≠ d.name := by
  rw [← knownArgument?_eq_some]
  simp only [initial, List.getElem?_map]
  by_cases hi : i < d.params.length
  · simp [hi]
  · simp [hi]

theorem knownClosed_initial {sargs : List Ty} (hpartial : d.PartialArguments sargs) :
    KnownClosed (initial d sargs).arguments := by
  intro i t ht
  obtain ⟨-, ha, hforeign⟩ := initial_eq_some.mp ht
  rcases hpartial i t ha with hclosed | ⟨p, rfl, howner, -⟩
  · exact hclosed
  · exact absurd howner (hforeign p (List.mem_singleton_self p))

/-- The arguments that a type starts with are among those that make it an instance. -/
theorem approximates_initial {sargs args : List Ty} (hlen : args.length = d.params.length)
    (hinstance : (Ty.named d.name sargs).instantiate d.name args = .named d.name args) :
    Approximates (initial d sargs).arguments args := by
  rw [TypeDef.instantiate_eq_subst, Ty.subst_named, Ty.named.injEq] at hinstance
  refine ⟨(length_initial d sargs).trans hlen.symm, fun i t ht => ?_⟩
  obtain ⟨-, ha, hforeign⟩ := initial_eq_some.mp ht
  have hkeep : t.subst (d.assignment args) = t := by
    refine (Ty.subst_congr fun q hq => ?_).trans (Ty.subst_none t)
    have hnone : d.assignment args q = none := if_neg fun he => hforeign q hq (eq_of_beq he)
    rw [Ty.subst, Ty.subst, hnone]
  rw [← hinstance.2, List.getElem?_map, ha, Option.map_some, hkeep]

theorem ofTy_eq (hd : ts.find? d.name = some d) (args : List Ty) :
    ofTy ts (.named d.name args) =
      if !args.isEmpty && args.length != d.params.length then
        .error (.typeResolution (Ty.named d.name args).text
          s!"expects {d.params.length} type argument(s), got {args.length}")
      else
        match (dependencies d).findCycle? with
        | some cycle => .error (.cyclicDependency d.selfTy.text
            (cycle.map fun position => (d.param position).name))
        | none => .ok (initial d args) := by
  simp only [ofTy, hd]
  split
  · rfl
  · rfl

theorem eq_initial_of_ofTy (hd : ts.find? d.name = some d) {args : List Ty} {o : OpenType}
    (h : ofTy ts (.named d.name args) = .ok o) :
    o = initial d args ∧ (args = [] ∨ args.length = d.params.length) := by
  rw [ofTy_eq hd] at h
  split at h
  next => cases h
  next hlen =>
    split at h
    next => cases h
    next =>
      cases h
      refine ⟨rfl, ?_⟩
      cases args with
      | nil => exact Or.inl rfl
      | cons a args => exact Or.inr (by simpa using hlen)

/-- Whatever type is taken up, it is some definition with the arguments it has for it. -/
theorem exists_initial_of_ofTy {t : Ty} {o : OpenType} (h : ofTy ts t = .ok o) :
    ∃ d args, o = initial d args := by
  cases t with
  | named n args =>
    simp only [ofTy] at h
    split at h
    next d _ =>
      split at h
      next => cases h
      next =>
        split at h
        next => cases h
        next =>
          cases h
          exact ⟨d, args, rfl⟩
    next => cases h
  | array a => cases h
  | param p => cases h

/-- A type is taken up if the parameters do not depend on each other in a cycle. -/
theorem ofTy_eq_ok (hd : ts.find? d.name = some d)
    (hacyclic : ∀ i, ¬Relation.TransGen d.DependsOn i i) {args : List Ty}
    (hlen : args.length = d.params.length) :
    ofTy ts (.named d.name args) = .ok (initial d args) := by
  have harity : (!args.isEmpty && args.length != d.params.length) = false := by simp [hlen]
  rw [ofTy_eq hd, harity, DependencyGraph.findCycle?_dependencies_eq_none_iff.mpr hacyclic]
  rfl

/-! ### One more argument -/

theorem withArgument_eq_ok {o o' : OpenType} {i : Nat} {t : Ty} :
    o.withArgument ts i t = .ok o' ↔
      ∃ declared, o.definition.params[i]? = some declared ∧
        (Parameter.ofDeclared o.definition declared i).check ts t o.bindings = .ok () ∧
        o' = { o with arguments := o.arguments.set i (some t) } := by
  unfold withArgument parameters
  rw [Parameter.getElem?_all]
  cases o.definition.params[i]? with
  | none => simp
  | some declared =>
    simp only [Option.map_some, Option.some.injEq, exists_eq_left']
    rw [Except.bind_eq_ok]
    constructor
    · rintro ⟨_, hcheck, h⟩
      cases h
      exact ⟨hcheck, rfl⟩
    · rintro ⟨hcheck, rfl⟩
      exact ⟨(), hcheck, rfl⟩

/-! ### The end -/

theorem map_some_filterMap_id {known : List (Option Ty)} (h : ∀ arg ∈ known, arg.isSome = true) :
    (known.filterMap id).map some = known := by
  induction known with
  | nil => rfl
  | cons arg known ih =>
    obtain ⟨t, rfl⟩ := Option.isSome_iff_exists.mp (h arg List.mem_cons_self)
    have hid : id (some t) = some t := rfl
    rw [List.filterMap_cons_some hid, List.map_cons,
      ih fun a ha => h a (List.mem_cons_of_mem _ ha)]

theorem filterMap_id_map_some (args : List Ty) : (args.map some).filterMap id = args := by
  rw [List.filterMap_map]
  exact List.filterMap_some

/-- A type is closed when all arguments are there. -/
theorem close_eq_ok {o : OpenType} {known : List (Option Ty)} {t : Ty}
    (hlen : known.length = o.definition.params.length) :
    o.close known = .ok t ↔ ∃ args, known = args.map some ∧ t = .named o.definition.name args := by
  have htake : known.take o.parameters.length = known := by
    rw [parameters, Parameter.length_all, ← hlen, List.take_length]
  unfold close
  dsimp only
  rw [htake]
  split
  next hall =>
    rw [List.isEmpty_iff, List.filter_eq_nil_iff] at hall
    have hsome : ∀ arg ∈ known, arg.isSome = true := by
      intro arg harg
      obtain ⟨i, hi, rfl⟩ := List.getElem_of_mem harg
      obtain ⟨declared, hdeclared⟩ : ∃ declared, o.definition.params[i]? = some declared :=
        ⟨_, List.getElem?_eq_getElem (hlen ▸ hi)⟩
      have hp := hall _ (Parameter.mem_all.mpr ⟨i, declared, hdeclared, rfl⟩)
      rw [Parameter.ofDeclared_position, List.getElem?_eq_getElem hi] at hp
      simpa [Option.isSome_iff_ne_none] using hp
    constructor
    · intro h
      cases h
      exact ⟨known.filterMap id, (map_some_filterMap_id hsome).symm, rfl⟩
    · rintro ⟨args, rfl, rfl⟩
      rw [filterMap_id_map_some]
  next hmissing =>
    constructor
    · intro h
      cases h
    · rintro ⟨args, rfl, rfl⟩
      rw [List.length_map] at hlen
      refine absurd ?_ hmissing
      rw [List.isEmpty_iff, List.filter_eq_nil_iff]
      intro p hp
      obtain ⟨i, declared, hi, rfl⟩ := Parameter.mem_all.mp hp
      have hlt : i < args.length := hlen ▸ (List.getElem?_eq_some_iff.mp hi).1
      rw [Parameter.ofDeclared_position, List.getElem?_map, List.getElem?_eq_getElem hlt]
      exact Bool.false_ne_true

theorem verify_eq_ok {o : OpenType} {args : List Ty} :
    o.verify ts args = .ok () ↔
      ∀ (i : Nat) (declared : GenericParam) (a : Ty), o.definition.params[i]? = some declared →
        args[i]? = some a → (Parameter.ofDeclared o.definition declared i).check ts a
          (bindingsOf (Parameter.all o.definition) (args.map some)) = .ok () := by
  unfold verify parameters
  rw [Except.forM_eq_ok]
  constructor
  · intro h i declared a hi ha
    refine h (Parameter.ofDeclared o.definition declared i, a) (List.mem_iff_getElem?.mpr ⟨i, ?_⟩)
    rw [List.getElem?_zip_eq_some, Parameter.getElem?_all, hi]
    exact ⟨rfl, ha⟩
  · rintro h ⟨p, a⟩ hmem
    obtain ⟨i, hi⟩ := List.mem_iff_getElem?.mp hmem
    rw [List.getElem?_zip_eq_some, Parameter.getElem?_all, Option.map_eq_some_iff] at hi
    obtain ⟨⟨declared, hdeclared, hp⟩, ha⟩ := hi
    change Parameter.ofDeclared o.definition declared i = p at hp
    subst hp
    exact h i declared a hdeclared ha

/-- A type is solved by the arguments that inference finds, if they pass the checks. -/
theorem solve_eq_ok {o : OpenType} (hlen : o.arguments.length = o.definition.params.length)
    {t : Ty} : o.solve ts = .ok t ↔ ∃ args, (o.infer ts).arguments = args.map some ∧
      o.verify ts args = .ok () ∧ t = .named o.definition.name args := by
  have hinferred : (o.infer ts).arguments.length = o.definition.params.length :=
    (extends_infer ts o).length.trans hlen
  unfold solve
  dsimp only
  rw [Except.bind_eq_ok]
  constructor
  · rintro ⟨resolved, hclose, h⟩
    obtain ⟨args, hargs, rfl⟩ := (close_eq_ok hinferred).mp hclose
    obtain ⟨_, hverify, h⟩ := Except.bind_eq_ok.mp h
    cases h
    rw [hargs, filterMap_id_map_some] at hverify
    exact ⟨args, hargs, hverify, rfl⟩
  · rintro ⟨args, hargs, hverify, rfl⟩
    refine ⟨_, (close_eq_ok hinferred).mpr ⟨args, hargs, rfl⟩, ?_⟩
    rw [hargs, filterMap_id_map_some, Except.bind_eq_ok]
    exact ⟨(), hverify, rfl⟩

/-- The arguments of a solved type keep what was known, and they are closed if that was. -/
theorem arguments_of_solve {o : OpenType} (hlen : o.arguments.length = o.definition.params.length)
    {t : Ty} (h : o.solve ts = .ok t) :
    ∃ args, t = .named o.definition.name args ∧ Approximates o.arguments args ∧
      (KnownClosed o.arguments → ∀ a ∈ args, a.isOpen = false) ∧ o.verify ts args = .ok () := by
  obtain ⟨args, hargs, hverify, rfl⟩ := (solve_eq_ok hlen).mp h
  have hextends := extends_infer ts o
  rw [hargs] at hextends
  refine ⟨args, rfl, ⟨?_, fun i t ht => ?_⟩, fun hk a ha => ?_, hverify⟩
  · have hlength := hextends.length
    rw [List.length_map] at hlength
    exact hlength.symm
  · exact (Approximates.self args).among i t (hextends.kept i t ht)
  · have hinferred : KnownClosed (o.infer ts).arguments := knownClosed_infer hk
    rw [hargs] at hinferred
    obtain ⟨i, hi⟩ := List.mem_iff_getElem?.mp ha
    apply hinferred i a
    rw [List.getElem?_map, hi]
    rfl

end OpenType

end Introspect

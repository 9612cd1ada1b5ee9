import Introspect.Proofs.Match.GenericConstraint

/-!
The rule for a single slot with parameters inside. What the target binds goes to the parameters that
the source leaves open; for those that it gives, the source's argument stays. So the target converts
to the slot with the found arguments put in, provided that the target binds no parameter of the
source to anything else than what the source gives.
-/

namespace Introspect

/-- Whether everything that the target binds in the slot agrees with the closed arguments that the
source has already. -/
def TypeSystem.BindsGiven (ts : TypeSystem) (sargs : List Ty) (slot target : Ty) : Prop :=
  ∀ b, ts.unifyAssignable .empty slot target = some b → ∀ q ∈ slot.occurrences, ∀ a,
    sargs[q.index]? = some a → a.isOpen = false → b.find? q = some a

namespace OpenType

/-- An argument that mentions one of the definition's own parameters leaves its position open. -/
theorem initial_eq_none {d : TypeDef} {args : List Ty} {i : Nat} {t : Ty}
    (hi : i < d.params.length) (ha : args[i]? = some t) {q : TyParam} (hq : q ∈ t.occurrences)
    (howner : q.owner = d.name) : (initial d args).arguments[i]? = some none := by
  have hunknown : knownArgument? d args i = none := by
    cases hknown : knownArgument? d args i with
    | none => rfl
    | some u =>
      obtain ⟨hu, hforeign⟩ := knownArgument?_eq_some.mp hknown
      cases ha.symm.trans hu
      exact absurd howner (hforeign q hq)
  simp only [initial, List.getElem?_map, List.getElem?_range hi, Option.map_some, hunknown]

end OpenType

namespace MatchRule

variable {ts : TypeSystem} {d : TypeDef}

/-! ### Bindings -/

/-- What the bindings of a slot do to a type. -/
structure NestedBound (entries : List (TyParam × Ty)) (o o' : OpenType) : Prop where
  definition : o'.definition = o.definition
  extend : Extends o.arguments o'.arguments
  bound : ∀ q : TyParam, q.owner = o.definition.name → o.arguments[q.index]? = some none →
    o'.arguments[q.index]?.join = Assoc.find? q entries

/-- Of several bindings of one parameter the first counts, and none counts if its position is taken
or not there. -/
theorem nestedBound_of_bindNested {entries : List (TyParam × Ty)} {o o' : OpenType}
    (h : bindNested ts o entries = .ok o') : NestedBound entries o o' := by
  induction entries generalizing o with
  | nil =>
    cases h
    refine ⟨rfl, Extends.refl _, fun q _ hq => ?_⟩
    rw [hq]
    rfl
  | cons e rest ih =>
    obtain ⟨p, t⟩ := e
    simp only [bindNested] at h
    split at h
    next htaken =>
      rw [Bool.and_eq_true, beq_iff_eq, Option.any_eq_true] at htaken
      obtain ⟨hp, arg, harg, hnone⟩ := htaken
      obtain rfl := Option.isNone_iff_eq_none.mp hnone
      obtain ⟨o₁, hwith, h⟩ := Except.bind_eq_ok.mp h
      obtain ⟨-, -, -, rfl⟩ := OpenType.withArgument_eq_ok.mp hwith
      have hrest : NestedBound rest { o with arguments := o.arguments.set p.index (some t) } o' :=
        ih h
      have hunknown : o.arguments[p.index]?.join = none := by rw [harg]; rfl
      refine ⟨hrest.definition, (Extends.set hunknown t).trans hrest.extend,
        fun q hq hopen => ?_⟩
      rw [Assoc.find?]
      split
      next hpq =>
        -- The position is taken from here on, and later bindings leave it as it is.
        rw [← (TyParam.beq_iff.mp hpq).1]
        have hlt : p.index < o.arguments.length := (List.getElem?_eq_some_iff.mp harg).1
        exact hrest.extend.kept p.index t (join_getElem?_set hlt t)
      next hpq =>
        apply hrest.bound q hq
        rw [List.getElem?_set_ne fun he => hpq (TyParam.beq_iff.mpr ⟨he, hp.trans hq.symm⟩)]
        exact hopen
    next htaken =>
      have hrest := ih h
      refine ⟨hrest.definition, hrest.extend, fun q hq hopen => ?_⟩
      -- A binding that is passed over is not one of an open position.
      have hpq : ¬(p == q) = true := by
        intro hpq
        obtain ⟨hindex, howner⟩ := TyParam.beq_iff.mp hpq
        apply htaken
        rw [hindex, howner, hq, hopen]
        simp
      rw [Assoc.find?, if_neg hpq]
      exact hrest.bound q hq hopen

/-! ### What the rule finds -/

theorem nestedDecomposition_eq_ok {c : Candidate} {targets : List Ty} {t : Ty} :
    nestedDecomposition.resolve ts c targets = .ok t ↔ ∃ slot target b o o',
      c.constraints = [slot] ∧ targets = [target] ∧
        ts.unifyAssignable .empty slot target = some b ∧ OpenType.ofTy ts c.source = .ok o ∧
        bindNested ts o b.entries = .ok o' ∧ o'.solve ts = .ok t := by
  simp only [nestedDecomposition]
  constructor
  · intro h
    split at h
    next slot target hslot =>
      split at h
      next => cases h
      next b hb =>
        obtain ⟨o, ho, h⟩ := Except.bind_eq_ok.mp h
        obtain ⟨o', ho', h⟩ := Except.bind_eq_ok.mp h
        exact ⟨slot, target, b, o, o', hslot, rfl, hb, ho, ho', h⟩
    next => cases h
  · rintro ⟨slot, target, b, o, o', hslot, rfl, hb, ho, ho', h⟩
    simp only [hslot, hb]
    exact Except.bind_eq_ok.mpr ⟨o, ho, Except.bind_eq_ok.mpr ⟨o', ho', h⟩⟩

namespace Sample

/-- A class `Pair<A, B>`. -/
def pair : TypeDef :=
  { TypeDef.new "Pair" .classType with params := [⟨"A", .none, []⟩, ⟨"B", .none, []⟩] }

def pairTypes : TypeSystem := (Registry.builtin.register pair).types 16

def pairOf (a b : Ty) : Ty := .named "Pair" [a, b]

/-- The class with its first argument given, for a slot that mentions both parameters. -/
def halfPair : Candidate :=
  let b : Ty := .param (pair.param 1)
  ⟨0, pairOf .int b, [pairOf (.param (pair.param 0)) b], 0⟩

theorem partialArguments_halfPair : pair.PartialArguments halfPair.source.args := by
  intro i a ha
  match i with
  | 0 =>
    cases ha
    exact Or.inl rfl
  | 1 =>
    cases ha
    exact Or.inr ⟨_, rfl, rfl, rfl⟩
  | i + 2 => cases ha

end Sample

/-- The target converts to the slot with the found arguments put in, as long as it binds the
parameters that the source gives to what the source gives. -/
theorem isAssignable_of_nestedDecomposition (hd : ts.find? d.name = some d) {c : Candidate}
    {sargs : List Ty} {slot target t : Ty} (hsource : c.source = .named d.name sargs)
    (hpartial : d.PartialArguments sargs) (hslot : c.constraints = [slot])
    (hown : ∀ q ∈ slot.occurrences, q.owner = d.name ∧ q.index < d.params.length)
    (hgiven : ts.BindsGiven sargs slot target)
    (hcan : nestedDecomposition.canMatch ts c [target] = true)
    (h : nestedDecomposition.resolve ts c [target] = .ok t) :
    ∃ args, t = .named d.name args ∧
      ts.isAssignable (slot.instantiate d.name args) target = true := by
  simp only [nestedDecomposition, hslot, Bool.and_eq_true, Bool.not_eq_true'] at hcan
  obtain ⟨⟨⟨⟨hopen, hslotOpen⟩, -⟩, hparam⟩, -⟩ := hcan
  obtain ⟨slot', target', b, o, o', hslot', htarget, hb, ho, ho', hsolve⟩ :=
    nestedDecomposition_eq_ok.mp h
  cases hslot.symm.trans hslot'
  cases htarget
  obtain ⟨hbound, hassignable⟩ := TypeSystem.isAssignable_of_unifyAssignable hslotOpen hparam hb
  rw [Candidate.isOpen, hsource] at hopen
  rw [hsource] at ho
  obtain ⟨rfl, rfl | hsargs⟩ := OpenType.eq_initial_of_ofTy hd ho
  · cases hopen
  obtain ⟨d', known⟩ := o'
  have hnested := nestedBound_of_bindNested ho'
  obtain rfl : d' = d := hnested.definition
  have hknown : known.length = d'.params.length :=
    hnested.extend.length.trans (OpenType.length_initial d' sargs)
  obtain ⟨args, rfl, hargs, -, -⟩ := OpenType.arguments_of_solve hknown hsolve
  refine ⟨args, rfl, ?_⟩
  -- The target converts to the slot under its bindings, and the arguments do the same to the slot.
  suffices hsame : slot.instantiate d'.name args = slot.apply b by
    rw [hsame]
    exact hassignable
  refine Ty.subst_congr fun q hq => ?_
  obtain ⟨howner, hlt⟩ := hown q hq
  obtain ⟨u, hu⟩ := Option.isSome_iff_exists.mp (hbound q hq)
  obtain ⟨a, ha⟩ : ∃ a, sargs[q.index]? = some a := ⟨_, List.getElem?_eq_getElem (hsargs ▸ hlt)⟩
  have hfound : args[q.index]? = some u := by
    apply hargs.among
    rcases hpartial q.index a ha with hclosed | ⟨p, rfl, hp, -⟩
    · -- The source gives this one, so the target binds it to the same type.
      cases hu.symm.trans (hgiven b hb q hq a ha hclosed)
      apply hnested.extend.kept
      exact OpenType.initial_eq_some.mpr
        ⟨hlt, ha, fun r hr => absurd hr (Ty.isOpen_eq_false_iff.mp hclosed r)⟩
    · have hnone := OpenType.initial_eq_none hlt ha (List.mem_singleton_self p) hp
      exact (hnested.bound q howner hnone).trans hu
  have hassigned := TypeDef.assignment_eq_some.mpr ⟨howner, hfound⟩
  simp only [Ty.subst, howner, BEq.rfl, if_true, hfound, hu]

theorem isAssignable_halfPair_int : ∃ args, Sample.pairOf .int .bool = .named "Pair" args ∧
    Sample.pairTypes.isAssignable (Sample.halfPair.constraints[0].instantiate "Pair" args)
      (Sample.pairOf .int .bool) = true := by
  have hgiven : Sample.pairTypes.BindsGiven Sample.halfPair.source.args
      Sample.halfPair.constraints[0] (Sample.pairOf .int .bool) := by
    intro b hb q hq a ha hclosed
    cases (rfl : _ = some _).symm.trans hb
    rcases List.mem_cons.mp hq with rfl | hq
    · cases ha
      rfl
    · obtain rfl := List.mem_singleton.mp hq
      cases ha
      cases hclosed
  exact isAssignable_of_nestedDecomposition (d := Sample.pair) (c := Sample.halfPair) rfl rfl
    Sample.partialArguments_halfPair rfl (by decide) hgiven rfl rfl

/-- A target that binds a given parameter to something else is taken all the same. -/
theorem not_isAssignable_halfPair_string :
    nestedDecomposition.canMatch Sample.pairTypes Sample.halfPair
      [Sample.pairOf .string .bool] = true ∧
    nestedDecomposition.resolve Sample.pairTypes Sample.halfPair
      [Sample.pairOf .string .bool] = .ok (.named "Pair" [.int, .bool]) ∧
    Sample.pairTypes.isAssignable
      (Sample.halfPair.constraints[0].instantiate "Pair" [.int, .bool])
      (Sample.pairOf .string .bool) = false :=
  ⟨rfl, rfl, rfl⟩

end MatchRule

end Introspect

import Introspect.Proofs.Generic.Constraint
import Mathlib.Data.Finset.Card

/-!
Inference of arguments. Each step keeps what is known and adds a closed type. Where valid arguments
exist it adds no others, provided that no constraint is a bare parameter and that no argument
converts to two types with one head. Each round then makes every parameter known that a constraint
of a known one mentions, so as many rounds as there are parameters reach all that a known one
depends on.
-/

namespace Introspect

/-- Valid arguments whose supertypes tell what the open parameters of a constraint are. -/
structure InferableArguments (ts : TypeSystem) (d : TypeDef) (args : List Ty) : Prop
    extends ValidArguments ts d args where
  compound : ∀ declared ∈ d.params, ∀ k ∈ declared.constraints, k.isParam = false
  heads : ∀ a ∈ args, ts.HeadsUnique a

/-- Whether all that is known stays known. -/
structure Extends (before after : List (Option Ty)) : Prop where
  length : after.length = before.length
  kept : ∀ (i : Nat) (t : Ty), before[i]?.join = some t → after[i]?.join = some t

namespace Extends

variable {a b c : List (Option Ty)}

theorem refl (a : List (Option Ty)) : Extends a a := ⟨rfl, fun _ _ h => h⟩

theorem trans (hab : Extends a b) (hbc : Extends b c) : Extends a c :=
  ⟨hbc.length.trans hab.length, fun i t h => hbc.kept i t (hab.kept i t h)⟩

theorem antisymm (hab : Extends a b) (hba : Extends b a) : a = b := by
  refine List.ext_getElem hba.length fun i hi hi' => ?_
  have hkept := hab.kept i
  have hkept' := hba.kept i
  rw [List.getElem?_eq_getElem hi, List.getElem?_eq_getElem hi'] at hkept hkept'
  cases hx : a[i] with
  | some t =>
    rw [hx] at hkept
    exact (hkept t rfl).symm
  | none =>
    cases hy : b[i] with
    | none => rfl
    | some t =>
      rw [hy] at hkept'
      exact hx.symm.trans (hkept' t rfl)

theorem set {i : Nat} (hi : a[i]?.join = none) (t : Ty) : Extends a (a.set i (some t)) := by
  refine ⟨List.length_set, fun j u hu => ?_⟩
  have hij : i ≠ j := by
    rintro rfl
    rw [hi] at hu
    cases hu
  rw [List.getElem?_set_ne hij]
  exact hu

end Extends

/-- Whether every known argument is closed. -/
def KnownClosed (known : List (Option Ty)) : Prop :=
  ∀ (i : Nat) (t : Ty), known[i]?.join = some t → t.isOpen = false

theorem join_getElem?_set {known : List (Option Ty)} {i : Nat} (hi : i < known.length) (t : Ty) :
    (known.set i (some t))[i]?.join = some t := by
  rw [List.getElem?_set_self hi]
  rfl

theorem KnownClosed.set {known : List (Option Ty)} (h : KnownClosed known) {i : Nat} {t : Ty}
    (ht : t.isOpen = false) : KnownClosed (known.set i (some t)) := by
  intro j u hu
  rcases known_of_set hu with ⟨-, rfl⟩ | hu
  · exact ht
  · exact h j u hu

namespace Parameter

variable {ts : TypeSystem} {d : TypeDef}

theorem ofDeclared_param {declared : GenericParam} {i : Nat} (hi : d.params[i]? = some declared) :
    (ofDeclared d declared i).param = d.param i := by
  simp only [ofDeclared, TypeDef.param, hi, Option.map_some, Option.getD_some]

theorem mem_dependedOnBy {declared : GenericParam} {i j : Nat} (hi : i < d.params.length) :
    j ∈ (ofDeclared d declared i).dependedOnBy ↔ d.DependsOn j i := by
  rw [TypeDef.DependsOn.iff_mentionedBy]
  simp only [ofDeclared, List.mem_filter, List.mem_range, bne_iff_ne, and_assoc]
  constructor
  · rintro ⟨-, hne, hm⟩
    exact ⟨hne, hi, hm⟩
  · rintro ⟨hne, -, hm⟩
    have hlt := TypeDef.DependsOn.lt_left (TypeDef.DependsOn.iff_mentionedBy.mpr ⟨hne, hi, hm⟩)
    exact ⟨hlt, hne, hm⟩

/-! ### Inference from one argument -/

theorem isOpen_of_inferFrom? {p dependent : Parameter} {concrete t : Ty} {known : Bindings}
    (h : p.inferFrom? ts dependent concrete known = some t) : t.isOpen = false := by
  obtain ⟨k, -, hk⟩ := List.exists_of_findSome?_eq_some h
  obtain ⟨inferred, -, hk⟩ := Option.bind_eq_some_iff.mp hk
  obtain ⟨u, -, hu⟩ := Option.bind_eq_some_iff.mp hk
  split at hu
  next => cases hu
  next hopen =>
    cases hu
    simpa using hopen

/-- The bindings of a constraint from which a parameter is inferred: the parameter stays open, and
the dependent one has its argument. -/
theorem find?_erase_insert_le {args : List Ty} {known : List (Option Ty)}
    (hk : Approximates known args) {p : TyParam} {j : Nat} {dependent : GenericParam}
    {concrete : Ty} (hj : args[j]? = some concrete) {q : TyParam} {u : Ty}
    (hq : (((OpenType.bindingsOf (all d) known).erase p).insert
      (ofDeclared d dependent j).param concrete).find? q = some u) :
    d.assignment args q = some u := by
  rcases Bindings.find?_insert_eq_some.mp hq with ⟨hpq, rfl⟩ | ⟨-, hq⟩
  · exact assignment_of_beq hj hpq
  · rw [Bindings.find?_erase] at hq
    split at hq
    next => cases hq
    next => exact OpenType.find?_bindingsOf_le hk hq

theorem position_of_beq {declared : GenericParam} {i : Nat} {q : TyParam}
    (h : (ofDeclared d declared i).param == q) : q.index = i := by
  change (i == q.index && d.name == q.owner) = true at h
  rw [Bool.and_eq_true, beq_iff_eq] at h
  exact h.1.symm

/-- Nothing is bound to the parameter that is inferred. -/
theorem find?_erase_insert_eq_none {b : Bindings} {declared dependent : GenericParam} {i j : Nat}
    (hij : j ≠ i) {q : TyParam} (hq : (ofDeclared d declared i).param == q) (concrete : Ty) :
    ((b.erase (ofDeclared d declared i).param).insert (ofDeclared d dependent j).param
      concrete).find? q = none := by
  have hne : ¬((ofDeclared d dependent j).param == q) = true := by
    intro h
    exact hij ((position_of_beq h).symm.trans (position_of_beq hq))
  rw [Bindings.find?_insert, if_neg hne, Bindings.find?_erase, if_pos hq]

/-- Every constraint of a known parameter that mentions another one tells the argument of that. -/
theorem infer_of_constraint {args : List Ty} (hv : InferableArguments ts d args)
    {known : List (Option Ty)} (hk : Approximates known args) {i j : Nat} (hij : j ≠ i)
    {declared dependent : GenericParam} {a concrete : Ty} (hj : d.params[j]? = some dependent)
    (ha : args[i]? = some a) (hconcrete : args[j]? = some concrete) {k : Ty}
    (hmem : k ∈ dependent.constraints)
    (hmention : k.mentions (ofDeclared d declared i).param = true) :
    (do
      let inferred ← ts.unifyAssignable .empty (k.apply
        (((OpenType.bindingsOf (all d) known).erase (ofDeclared d declared i).param).insert
          (ofDeclared d dependent j).param concrete)) concrete
      let t ← inferred.find? (ofDeclared d declared i).param
      if t.isOpen then none else some t) = some a := by
  generalize hb : ((OpenType.bindingsOf (all d) known).erase (ofDeclared d declared i).param).insert
    (ofDeclared d dependent j).param concrete = b
  have hle : ∀ q u, b.find? q = some u → d.assignment args q = some u ∧ u.isOpen = false := by
    intro q u hq
    rw [← hb] at hq
    have hassigned := find?_erase_insert_le hk hconcrete hq
    exact ⟨hassigned, hv.isOpen_of_getElem? (TypeDef.assignment_eq_some.mp hassigned).2⟩
  -- The parameter occurs in the constraint and nothing is bound to it, so the constraint is open.
  obtain ⟨q, hq, hqp⟩ := List.any_eq_true.mp hmention
  have hunbound : b.find? q = none := hb ▸ find?_erase_insert_eq_none hij (BEq.symm hqp) concrete
  have hocc : q ∈ (k.apply b).occurrences := Ty.mem_occurrences_subst hunbound hq
  have hparam : (k.apply b).isParam = false :=
    Ty.isParam_subst (hv.compound dependent (List.mem_of_getElem? hj) k hmem)
  have hassignable : ts.isAssignable ((k.apply b).subst (d.assignment args)) concrete = true := by
    rw [Ty.apply, Ty.subst_subst_of_le hle]
    exact hv.constraints j dependent concrete hj hconcrete k hmem
  obtain ⟨inferred, hunify, hdomain, hagree⟩ := TypeSystem.unifyAssignable_of_isAssignable
    (d.nameBlind_assignment args) (Bindings.agree_empty _) (Ty.isOpen_of_mem hocc) hparam
    hassignable
  obtain ⟨t, ht⟩ := Option.isSome_iff_exists.mp (hdomain q hocc)
  have hfind : inferred.find? (ofDeclared d declared i).param = some t :=
    (Assoc.find?_congr hqp inferred.entries).symm.trans ht
  have hassigned : d.assignment args (ofDeclared d declared i).param = some a :=
    assignment_of_beq ha BEq.rfl
  have hat : a == t := by
    have h := hagree (hv.heads concrete (List.mem_of_getElem? hconcrete)) _ t hfind
    simpa only [Ty.subst, hassigned, Option.getD_some] using h
  have hclosed := hv.isOpen_of_getElem? ha
  obtain rfl := Ty.eq_of_beq_of_closed hat hclosed
  simp [hunify, hfind, hclosed]

theorem inferFrom?_eq {args : List Ty} (hv : InferableArguments ts d args)
    {known : List (Option Ty)} (hk : Approximates known args) {i j : Nat}
    (hdep : d.DependsOn j i) {declared dependent : GenericParam} {a concrete : Ty}
    (hi : d.params[i]? = some declared) (hj : d.params[j]? = some dependent)
    (ha : args[i]? = some a) (hconcrete : args[j]? = some concrete) :
    (ofDeclared d declared i).inferFrom? ts (ofDeclared d dependent j) concrete
      (OpenType.bindingsOf (all d) known) = some a := by
  obtain ⟨hij, -, dependent', hj', k, hk', hmention⟩ := hdep
  rw [hj] at hj'
  cases hj'
  rw [← ofDeclared_param hi] at hmention
  have htells := fun k' (hmem : k' ∈ dependent.constraints.filter
      fun c => c.mentions (ofDeclared d declared i).param) =>
    infer_of_constraint hv hk hij hj ha hconcrete (List.mem_filter.mp hmem).1
      (List.mem_filter.mp hmem).2
  have hfirst : k ∈ dependent.constraints.filter
      fun c => c.mentions (ofDeclared d declared i).param := List.mem_filter.mpr ⟨hk', hmention⟩
  unfold inferFrom?
  change (dependent.constraints.filter fun c =>
    c.mentions (ofDeclared d declared i).param).findSome? _ = some a
  cases hlist : dependent.constraints.filter
      fun c => c.mentions (ofDeclared d declared i).param with
  | nil =>
    rw [hlist] at hfirst
    cases hfirst
  | cons k' rest =>
    have hk'' := htells k' (by rw [hlist]; exact List.mem_cons_self)
    rw [List.findSome?_cons, hk'']

end Parameter

namespace OpenType

open Parameter

variable {ts : TypeSystem} {d : TypeDef}

theorem isOpen_of_inferOne? {parameters : List Parameter} {known : List (Option Ty)} {p : Parameter}
    {t : Ty} (h : inferOne? ts parameters known p = some t) : t.isOpen = false := by
  obtain ⟨j, -, hj⟩ := List.exists_of_findSome?_eq_some h
  obtain ⟨concrete, -, hj⟩ := Option.bind_eq_some_iff.mp hj
  obtain ⟨dependent, -, hj⟩ := Option.bind_eq_some_iff.mp hj
  exact isOpen_of_inferFrom? hj

/-- What is inferred for a parameter is its argument. -/
theorem inferOne?_eq_of_eq_some {args : List Ty} (hv : InferableArguments ts d args)
    {known : List (Option Ty)} (hk : Approximates known args) {i : Nat} {declared : GenericParam}
    {a t : Ty} (hi : d.params[i]? = some declared) (ha : args[i]? = some a)
    (h : inferOne? ts (all d) known (ofDeclared d declared i) = some t) : t = a := by
  obtain ⟨j, hj, hfrom⟩ := List.exists_of_findSome?_eq_some h
  obtain ⟨concrete, hconcrete, hfrom⟩ := Option.bind_eq_some_iff.mp hfrom
  obtain ⟨dependent, hdependent, hfrom⟩ := Option.bind_eq_some_iff.mp hfrom
  have hlt : i < d.params.length := (List.getElem?_eq_some_iff.mp hi).1
  rw [getElem?_all, Option.map_eq_some_iff] at hdependent
  obtain ⟨dependent', hj', rfl⟩ := hdependent
  have heq := inferFrom?_eq hv hk ((mem_dependedOnBy hlt).mp hj) hi hj' ha
    (hk.among j concrete hconcrete)
  rw [heq] at hfrom
  exact (Option.some.inj hfrom).symm

/-- A parameter is inferred as soon as one is known whose constraints mention it. -/
theorem inferOne?_eq_some {args : List Ty} (hv : InferableArguments ts d args)
    {known : List (Option Ty)} (hk : Approximates known args) {i j : Nat} (hdep : d.DependsOn j i)
    {declared : GenericParam} {a concrete : Ty} (hi : d.params[i]? = some declared)
    (ha : args[i]? = some a) (hj : known[j]?.join = some concrete) :
    inferOne? ts (all d) known (ofDeclared d declared i) = some a := by
  have hlt : i < d.params.length := (List.getElem?_eq_some_iff.mp hi).1
  obtain ⟨dependent, hdependent⟩ : ∃ dependent, d.params[j]? = some dependent :=
    ⟨_, List.getElem?_eq_getElem hdep.lt_left⟩
  have hfrom := inferFrom?_eq hv hk hdep hi hdependent ha (hk.among j concrete hj)
  cases hone : inferOne? ts (all d) known (ofDeclared d declared i) with
  | some t => rw [inferOne?_eq_of_eq_some hv hk hi ha hone]
  | none =>
    have hnone := List.findSome?_eq_none_iff.mp hone j ((mem_dependedOnBy hlt).mpr hdep)
    simp [hj, getElem?_all, hdependent, hfrom] at hnone

/-! ### Rounds -/

/-- One step of a round: an argument that is missing and implied becomes known. -/
def inferStep (ts : TypeSystem) (parameters : List Parameter) (known : List (Option Ty))
    (p : Parameter) : List (Option Ty) :=
  if (known[p.position]?.join).isSome then known
  else
    match inferOne? ts parameters known p with
    | some t => known.set p.position (some t)
    | none => known

theorem inferRound_eq_foldl (ts : TypeSystem) (parameters : List Parameter)
    (known : List (Option Ty)) :
    inferRound ts parameters known = parameters.foldl (inferStep ts parameters) known := rfl

theorem inferStep_cases (ts : TypeSystem) (parameters : List Parameter) (known : List (Option Ty))
    (p : Parameter) :
    inferStep ts parameters known p = known ∨
      ∃ t, known[p.position]?.join = none ∧ inferOne? ts parameters known p = some t ∧
        inferStep ts parameters known p = known.set p.position (some t) := by
  unfold inferStep
  split
  next => exact Or.inl rfl
  next hunknown =>
    cases hone : inferOne? ts parameters known p with
    | none => exact Or.inl rfl
    | some t => exact Or.inr ⟨t, by simpa using hunknown, rfl, rfl⟩

theorem extends_inferStep (ts : TypeSystem) (parameters : List Parameter) (known : List (Option Ty))
    (p : Parameter) : Extends known (inferStep ts parameters known p) := by
  rcases inferStep_cases ts parameters known p with h | ⟨t, hunknown, -, h⟩
  · rw [h]
    exact Extends.refl known
  · rw [h]
    exact Extends.set hunknown t

/-- What every step keeps, a round keeps, from any of its parameters on. -/
theorem extends_foldl_inferStep (ts : TypeSystem) (parameters ps : List Parameter)
    (known : List (Option Ty)) : Extends known (ps.foldl (inferStep ts parameters) known) := by
  induction ps generalizing known with
  | nil => exact Extends.refl known
  | cons p ps ih => exact (extends_inferStep ts parameters known p).trans (ih _)

theorem extends_inferRound (ts : TypeSystem) (parameters : List Parameter)
    (known : List (Option Ty)) : Extends known (inferRound ts parameters known) :=
  extends_foldl_inferStep ts parameters parameters known

theorem foldl_inferStep_induction {parameters : List Parameter} {motive : List (Option Ty) → Prop}
    (step : ∀ known p t, motive known → p ∈ parameters →
      inferOne? ts parameters known p = some t → motive (known.set p.position (some t)))
    {ps : List Parameter} (hps : ∀ p ∈ ps, p ∈ parameters) {known : List (Option Ty)}
    (h : motive known) : motive (ps.foldl (inferStep ts parameters) known) := by
  induction ps generalizing known with
  | nil => exact h
  | cons p ps ih =>
    rw [List.foldl_cons]
    refine ih (fun q hq => hps q (List.mem_cons_of_mem p hq)) ?_
    rcases inferStep_cases ts parameters known p with heq | ⟨t, -, hone, heq⟩
    · rw [heq]
      exact h
    · rw [heq]
      exact step known p t h (hps p List.mem_cons_self) hone

theorem infer_induction {o : OpenType} {motive : List (Option Ty) → Prop}
    (step : ∀ known p t, motive known → p ∈ o.parameters →
      inferOne? ts o.parameters known p = some t → motive (known.set p.position (some t)))
    (rounds : Nat) (h : motive o.arguments) :
    motive (rounds.repeat (inferRound ts o.parameters) o.arguments) := by
  induction rounds with
  | zero => exact h
  | succ rounds ih => exact foldl_inferStep_induction step (fun _ hp => hp) ih

theorem extends_rounds (ts : TypeSystem) (parameters : List Parameter) (rounds : Nat)
    (known : List (Option Ty)) :
    Extends known (rounds.repeat (inferRound ts parameters) known) := by
  induction rounds with
  | zero => exact Extends.refl known
  | succ rounds ih => exact ih.trans (extends_inferRound ts parameters _)

/-- Inference adds closed types only. -/
theorem known_of_infer {o : OpenType} {i : Nat} {t : Ty}
    (h : (o.infer ts).arguments[i]?.join = some t) :
    o.arguments[i]?.join = some t ∨ t.isOpen = false := by
  refine infer_induction (motive := fun known => ∀ i t, known[i]?.join = some t →
    o.arguments[i]?.join = some t ∨ t.isOpen = false) ?_ _ (fun _ _ h => Or.inl h) i t h
  intro known p u hknown _ hone j t hj
  rcases known_of_set hj with ⟨-, rfl⟩ | hj
  · exact Or.inr (isOpen_of_inferOne? hone)
  · exact hknown j t hj

theorem knownClosed_infer {o : OpenType} (h : KnownClosed o.arguments) :
    KnownClosed (o.infer ts).arguments := by
  intro i t ht
  rcases known_of_infer ht with hknown | hclosed
  · exact h i t hknown
  · exact hclosed

theorem extends_infer (ts : TypeSystem) (o : OpenType) :
    Extends o.arguments (o.infer ts).arguments :=
  extends_rounds ts o.parameters o.parameters.length o.arguments

/-- A step only adds what is among the arguments. -/
theorem approximates_set {args : List Ty} (hv : InferableArguments ts d args)
    {known : List (Option Ty)} {p : Parameter} {t : Ty} (hk : Approximates known args)
    (hp : p ∈ all d) (hone : inferOne? ts (all d) known p = some t) :
    Approximates (known.set p.position (some t)) args := by
  obtain ⟨i, declared, hi, rfl⟩ := mem_all.mp hp
  have hlt : i < args.length := hv.arity ▸ (List.getElem?_eq_some_iff.mp hi).1
  have ha := List.getElem?_eq_getElem hlt
  obtain rfl := inferOne?_eq_of_eq_some hv hk hi ha hone
  exact hk.set ha

theorem approximates_foldl_inferStep {args : List Ty} (hv : InferableArguments ts d args)
    {ps : List Parameter} (hps : ∀ p ∈ ps, p ∈ all d) {known : List (Option Ty)}
    (hk : Approximates known args) :
    Approximates (ps.foldl (inferStep ts (all d)) known) args :=
  foldl_inferStep_induction (motive := fun known => Approximates known args)
    (fun _ _ _ hk hp hone => approximates_set hv hk hp hone) hps hk

theorem approximates_rounds {args : List Ty} (hv : InferableArguments ts d args)
    {known : List (Option Ty)} (hk : Approximates known args) (rounds : Nat) :
    Approximates (rounds.repeat (inferRound ts (all d)) known) args := by
  induction rounds with
  | zero => exact hk
  | succ rounds ih => exact approximates_foldl_inferStep hv (fun _ hp => hp) ih

/-! ### Progress -/

/-- In its turn a parameter becomes known if one is known whose constraints mention it. -/
theorem isSome_inferStep {args : List Ty} (hv : InferableArguments ts d args)
    {known : List (Option Ty)} (hk : Approximates known args) {i j : Nat} (hdep : d.DependsOn j i)
    {declared : GenericParam} {concrete : Ty} (hi : d.params[i]? = some declared)
    (hj : known[j]?.join = some concrete) :
    ((inferStep ts (all d) known (ofDeclared d declared i))[i]?.join).isSome = true := by
  have hlt : i < args.length := hv.arity ▸ hdep.2.1
  have hone := inferOne?_eq_some hv hk hdep hi (List.getElem?_eq_getElem hlt) hj
  unfold inferStep
  rw [hone, ofDeclared_position]
  split
  next hknown => exact hknown
  next =>
    dsimp only
    rw [join_getElem?_set (hk.length ▸ hlt)]
    rfl

/-- A round reaches every parameter that the constraints of a known one mention. -/
theorem isSome_inferRound {args : List Ty} (hv : InferableArguments ts d args)
    {known : List (Option Ty)} (hk : Approximates known args) {i j : Nat} (hdep : d.DependsOn j i)
    {concrete : Ty} (hj : known[j]?.join = some concrete) :
    ((inferRound ts (all d) known)[i]?.join).isSome = true := by
  obtain ⟨declared, hi⟩ : ∃ declared, d.params[i]? = some declared :=
    ⟨_, List.getElem?_eq_getElem hdep.2.1⟩
  have hp : ofDeclared d declared i ∈ all d := mem_all.mpr ⟨i, declared, hi, rfl⟩
  obtain ⟨before, after, hsplit⟩ := List.append_of_mem hp
  have hbefore : ∀ p ∈ before, p ∈ all d := fun p hmem => by
    rw [hsplit]
    exact List.mem_append_left _ hmem
  -- When the parameter has its turn all is known that was known at the start of the round.
  have hstarted := approximates_foldl_inferStep hv hbefore hk
  have hstill := (extends_foldl_inferStep ts (all d) before known).kept j concrete hj
  have hturn := isSome_inferStep hv hstarted hdep hi hstill
  obtain ⟨t, ht⟩ := Option.isSome_iff_exists.mp hturn
  have hround : inferRound ts (all d) known = after.foldl (inferStep ts (all d))
      (inferStep ts (all d) (before.foldl (inferStep ts (all d)) known)
        (ofDeclared d declared i)) := by
    rw [inferRound_eq_foldl]
    conv_lhs => rw [hsplit]
    rw [List.foldl_append, List.foldl_cons, ← hsplit]
  rw [hround, (extends_foldl_inferStep ts (all d) after _).kept i t ht]
  rfl

/-- The positions of the arguments that are missing. -/
def missing (known : List (Option Ty)) : Finset Nat :=
  (Finset.range known.length).filter fun i => (known[i]?.join).isNone

theorem mem_missing {known : List (Option Ty)} {i : Nat} :
    i ∈ missing known ↔ i < known.length ∧ known[i]?.join = none := by
  simp only [missing, Finset.mem_filter, Finset.mem_range, Option.isNone_iff_eq_none]

theorem card_missing_le (known : List (Option Ty)) : (missing known).card ≤ known.length := by
  have hcard := Finset.card_filter_le (Finset.range known.length)
    fun i => (known[i]?.join).isNone = true
  rwa [Finset.card_range] at hcard

theorem missing_subset {before after : List (Option Ty)} (h : Extends before after) :
    missing after ⊆ missing before := by
  intro i hi
  obtain ⟨hlt, hnone⟩ := mem_missing.mp hi
  refine mem_missing.mpr ⟨h.length ▸ hlt, ?_⟩
  cases hb : before[i]?.join with
  | none => rfl
  | some t =>
    rw [h.kept i t hb] at hnone
    cases hnone

/-- A way from inside a set to outside leaves it by some step. -/
theorem exists_step_out {α : Type} {r : α → α → Prop} {s : α → Prop} {a b : α}
    (h : Relation.ReflTransGen r a b) (ha : s a) (hb : ¬s b) : ∃ x y, r x y ∧ s x ∧ ¬s y := by
  induction h with
  | refl => exact absurd ha hb
  | @tail x y _ hxy ih =>
    by_cases hx : s x
    · exact ⟨x, y, hxy, hx, hb⟩
    · exact ih hx

/-- Every parameter is known or depended on, over some steps, by a known one. -/
def Reaches (d : TypeDef) (known : List (Option Ty)) : Prop :=
  ∀ j < d.params.length, ∃ i, (known[i]?.join).isSome = true ∧ Relation.ReflTransGen d.DependsOn i j

theorem Reaches.extends {before after : List (Option Ty)} (h : Reaches d before)
    (hext : Extends before after) : Reaches d after := by
  intro j hj
  obtain ⟨i, hi, hway⟩ := h j hj
  obtain ⟨t, ht⟩ := Option.isSome_iff_exists.mp hi
  exact ⟨i, Option.isSome_iff_exists.mpr ⟨t, hext.kept i t ht⟩, hway⟩

/-- As long as arguments are missing each round finds one of them. -/
theorem card_missing_inferRound {args : List Ty} (hv : InferableArguments ts d args)
    {known : List (Option Ty)} (hk : Approximates known args) (hreach : Reaches d known)
    (hmissing : (missing known).Nonempty) :
    (missing (inferRound ts (all d) known)).card < (missing known).card := by
  obtain ⟨j, hj⟩ := hmissing
  obtain ⟨hlt, hnone⟩ := mem_missing.mp hj
  have hlen : known.length = d.params.length := hk.length.trans hv.arity
  obtain ⟨i, hi, hway⟩ := hreach j (hlen ▸ hlt)
  -- On the way to a missing argument some constraint of a known one mentions a missing one.
  have hunknown : ¬(known[j]?.join).isSome = true := by
    rw [hnone]
    exact Bool.false_ne_true
  obtain ⟨x, y, hxy, hx, hy⟩ :=
    exists_step_out (s := fun i => (known[i]?.join).isSome = true) hway hi hunknown
  obtain ⟨concrete, hconcrete⟩ := Option.isSome_iff_exists.mp hx
  have hfound := isSome_inferRound hv hk hxy hconcrete
  apply Finset.card_lt_card
  rw [Finset.ssubset_iff_of_subset (missing_subset (extends_inferRound ts (all d) known))]
  refine ⟨y, mem_missing.mpr ⟨hlen ▸ hxy.2.1, by simpa using hy⟩, fun hmem => ?_⟩
  rw [(mem_missing.mp hmem).2] at hfound
  cases hfound

theorem card_missing_rounds {args : List Ty} (hv : InferableArguments ts d args)
    {known : List (Option Ty)} (hk : Approximates known args) (hreach : Reaches d known)
    (rounds : Nat) :
    (missing (rounds.repeat (inferRound ts (all d)) known)).card ≤ d.params.length - rounds := by
  induction rounds with
  | zero =>
    have hlen : known.length = d.params.length := hk.length.trans hv.arity
    rw [Nat.sub_zero, ← hlen]
    exact card_missing_le known
  | succ rounds ih =>
    have hk' := approximates_rounds hv hk rounds
    have hreach' := hreach.extends (extends_rounds ts (all d) rounds known)
    change (missing (inferRound ts (all d) (rounds.repeat (inferRound ts (all d)) known))).card ≤ _
    rcases (missing (rounds.repeat (inferRound ts (all d)) known)).eq_empty_or_nonempty with
      hnone | hsome
    -- Once nothing is missing, nothing is lost again.
    · have hsub := missing_subset (extends_inferRound ts (all d)
        (rounds.repeat (inferRound ts (all d)) known))
      rw [hnone, Finset.subset_empty] at hsub
      rw [hsub, Finset.card_empty]
      exact Nat.zero_le _
    · have hlt := card_missing_inferRound hv hk' hreach' hsome
      omega

/-- Inference finds all arguments if every parameter is depended on by a known one. -/
theorem infer_eq_map_some {o : OpenType} {args : List Ty}
    (hv : InferableArguments ts o.definition args) (hk : Approximates o.arguments args)
    (hreach : Reaches o.definition o.arguments) :
    (o.infer ts).arguments = args.map some := by
  have hcard := card_missing_rounds hv hk hreach o.definition.params.length
  have happrox := approximates_rounds hv hk o.definition.params.length
  have hinfer : (o.infer ts).arguments =
      o.definition.params.length.repeat (inferRound ts (all o.definition)) o.arguments := by
    simp only [infer, parameters, length_all]
  rw [Nat.sub_self, Nat.le_zero, Finset.card_eq_zero] at hcard
  rw [← hinfer] at hcard happrox
  apply List.ext_getElem?
  intro i
  rw [List.getElem?_map]
  by_cases hlt : i < args.length
  · have hi : i < (o.infer ts).arguments.length := happrox.length ▸ hlt
    have hknown : i ∉ missing (o.infer ts).arguments := by
      rw [hcard]
      exact Finset.notMem_empty i
    cases hjoin : (o.infer ts).arguments[i]?.join with
    | none => exact absurd (mem_missing.mpr ⟨hi, hjoin⟩) hknown
    | some t =>
      rw [happrox.among i t hjoin]
      rw [List.getElem?_eq_getElem hi] at hjoin ⊢
      exact congrArg some hjoin
  · rw [List.getElem?_eq_none (happrox.length ▸ Nat.le_of_not_lt hlt),
      List.getElem?_eq_none (Nat.le_of_not_lt hlt)]
    rfl

end OpenType

end Introspect

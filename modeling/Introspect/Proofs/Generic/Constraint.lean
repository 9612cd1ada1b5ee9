import Introspect.Proofs.Generic.Dependency
import Introspect.Generic.Parameter
import Introspect.Proofs.Unification.MostGeneral

/-!
Constraints of generic parameters. Arguments are valid when they are closed and meet every
constraint with all parameters replaced. A check of some of them with the others still open never
refuses valid ones, and the check of all of them accepts no others.
-/

namespace Introspect

namespace SpecialConstraints

/-- Whether a type is of the kinds asked for. -/
structure MetBy (s : SpecialConstraints) (ts : TypeSystem) (t : Ty) : Prop where
  referenceType : s.referenceType = true → ts.isReferenceType t = true
  valueType : s.valueType = true → ts.isValueType t = true
  defaultConstructor : s.defaultConstructor = true → ts.hasDefaultConstructor t = true

end SpecialConstraints

namespace TypeDef

/-- The substitution of the own parameters by arguments. -/
def assignment (d : TypeDef) (args : List Ty) : TyParam → Option Ty :=
  fun p => if p.owner == d.name then args[p.index]? else none

theorem instantiate_eq_subst (d : TypeDef) (args : List Ty) (t : Ty) :
    t.instantiate d.name args = t.subst (d.assignment args) := rfl

theorem assignment_eq_some {d : TypeDef} {args : List Ty} {p : TyParam} {t : Ty} :
    d.assignment args p = some t ↔ p.owner = d.name ∧ args[p.index]? = some t := by
  unfold assignment
  split
  next h => simp [eq_of_beq h]
  next h =>
    have hne : p.owner ≠ d.name := fun he => h (beq_iff_eq.mpr he)
    simp [hne]

theorem nameBlind_assignment (d : TypeDef) (args : List Ty) : NameBlind (d.assignment args) := by
  intro p q hpq
  obtain ⟨hindex, howner⟩ := (Bool.and_eq_true _ _ ▸ hpq : (p.index == q.index) = true ∧
    (p.owner == q.owner) = true)
  simp only [assignment, eq_of_beq hindex, eq_of_beq howner]

end TypeDef

/-- Arguments for all parameters of a definition that are closed and meet its constraints. -/
structure ValidArguments (ts : TypeSystem) (d : TypeDef) (args : List Ty) : Prop where
  arity : args.length = d.params.length
  closed : ∀ a ∈ args, a.isOpen = false
  special : ∀ (i : Nat) (declared : GenericParam) (a : Ty), d.params[i]? = some declared →
    args[i]? = some a → declared.special.MetBy ts a
  constraints : ∀ (i : Nat) (declared : GenericParam) (a : Ty), d.params[i]? = some declared →
    args[i]? = some a → ∀ k ∈ declared.constraints,
      ts.isAssignable (k.instantiate d.name args) a = true

/-- Whether known arguments are among the given ones, each at its position. -/
structure Approximates (known : List (Option Ty)) (args : List Ty) : Prop where
  length : known.length = args.length
  among : ∀ (i : Nat) (t : Ty), known[i]?.join = some t → args[i]? = some t

theorem known_of_set {known : List (Option Ty)} {i j : Nat} {t u : Ty}
    (h : (known.set i (some t))[j]?.join = some u) :
    (i = j ∧ t = u) ∨ known[j]?.join = some u := by
  rw [List.getElem?_set] at h
  split at h
  next hij =>
    split at h
    · cases h
      exact Or.inl ⟨hij, rfl⟩
    · cases h
  next => exact Or.inr h

theorem Approximates.set {known : List (Option Ty)} {args : List Ty} (h : Approximates known args)
    {i : Nat} {t : Ty} (ht : args[i]? = some t) : Approximates (known.set i (some t)) args := by
  refine ⟨List.length_set.trans h.length, fun j u hu => ?_⟩
  rcases known_of_set hu with ⟨rfl, rfl⟩ | hu
  · exact ht
  · exact h.among j u hu

theorem Approximates.self (args : List Ty) : Approximates (args.map some) args := by
  refine ⟨List.length_map some, fun i t ht => ?_⟩
  rw [List.getElem?_map] at ht
  cases ha : args[i]? with
  | none =>
    rw [ha] at ht
    cases ht
  | some a =>
    rw [ha] at ht
    exact ht

namespace OpenType

/-! ### The bindings of arguments -/

/-- What one more argument binds. -/
theorem find?_bindArgument (d : TypeDef) (declared : GenericParam) (k : Nat) (arg : Option Ty)
    (b : Bindings) (q : TyParam) :
    (match arg with
      | some t => b.insert (Parameter.ofDeclared d declared k).param t
      | none => b).find? q =
      if q.owner = d.name ∧ q.index = k then arg.or (b.find? q) else b.find? q := by
  have hparam : (Parameter.ofDeclared d declared k).param == q ↔
      q.owner = d.name ∧ q.index = k := by
    change ((k == q.index) && (d.name == q.owner)) = true ↔ _
    simp only [Bool.and_eq_true, beq_iff_eq]
    exact ⟨fun h => ⟨h.2.symm, h.1.symm⟩, fun h => ⟨h.2.symm, h.1.symm⟩⟩
  cases arg with
  | none => simp
  | some t => simp [Bindings.find?_insert, hparam]

theorem find?_foldl_bindArguments (d : TypeDef) (declared : List GenericParam) (k : Nat)
    (known : List (Option Ty)) (b : Bindings) (q : TyParam) :
    ((((declared.zipIdx k).map fun (p, i) => Parameter.ofDeclared d p i).zip known).foldl
      (fun b (p, arg) =>
        match arg with
        | some t => b.insert p.param t
        | none => b) b).find? q =
      if q.owner = d.name ∧ k ≤ q.index ∧ q.index < k + declared.length then
        (known[q.index - k]?.join).or (b.find? q)
      else b.find? q := by
  induction declared generalizing k known b with
  | nil =>
    have hempty : ¬(k ≤ q.index ∧ q.index < k) := by omega
    simp [hempty]
  | cons p declared ih =>
    cases known with
    | nil => simp
    | cons arg known =>
      simp only [List.zipIdx_cons, List.map_cons, List.zip_cons_cons, List.foldl_cons]
      rw [ih, find?_bindArgument]
      -- The parameter at `k` is bound here, those above it are bound by what is left.
      by_cases howner : q.owner = d.name
      · rcases Nat.lt_trichotomy q.index k with hlt | heq | hgt
        · have h₁ : ¬(k + 1 ≤ q.index) := by omega
          have h₂ : ¬(k ≤ q.index) := by omega
          have h₃ : q.index ≠ k := by omega
          simp [h₁, h₂, h₃]
        · have h₁ : ¬(k + 1 ≤ k) := by omega
          simp [howner, heq, h₁]
        · have h₁ : q.index - k = q.index - (k + 1) + 1 := by omega
          have h₂ : k + 1 ≤ q.index := by omega
          have h₃ : k ≤ q.index := by omega
          have h₄ : q.index ≠ k := by omega
          have h₅ : q.index < k + 1 + declared.length ↔ q.index < k + (declared.length + 1) := by
            omega
          simp [howner, h₁, h₂, h₃, h₄, h₅]
      · simp [howner]

/-- The bindings of arguments have those of the own parameters, and no others. -/
theorem find?_bindingsOf (d : TypeDef) (known : List (Option Ty)) (q : TyParam) :
    (bindingsOf (Parameter.all d) known).find? q =
      if q.owner = d.name ∧ q.index < d.params.length then known[q.index]?.join else none := by
  have h := find?_foldl_bindArguments d d.params 0 known .empty q
  have hempty : Bindings.empty.find? q = none := rfl
  simp only [Nat.zero_le, true_and, Nat.zero_add, Nat.sub_zero, hempty, Option.or_none] at h
  exact h

theorem find?_bindingsOf_le {d : TypeDef} {known : List (Option Ty)} {args : List Ty}
    (h : Approximates known args) {q : TyParam} {t : Ty}
    (hq : (bindingsOf (Parameter.all d) known).find? q = some t) :
    d.assignment args q = some t := by
  rw [find?_bindingsOf] at hq
  split at hq
  next hown => exact TypeDef.assignment_eq_some.mpr ⟨hown.1, h.among q.index t hq⟩
  next => cases hq

theorem find?_bindingsOf_map_some {d : TypeDef} {args : List Ty}
    (hlen : args.length = d.params.length) (q : TyParam) :
    (bindingsOf (Parameter.all d) (args.map some)).find? q = d.assignment args q := by
  rw [find?_bindingsOf]
  unfold TypeDef.assignment
  by_cases howner : q.owner = d.name
  · by_cases hindex : q.index < d.params.length
    · have hargs : q.index < args.length := by omega
      simp [howner, hindex, hargs]
    · have hnone : args[q.index]? = none := List.getElem?_eq_none (by omega)
      simp [howner, hindex, hnone]
  · simp [howner]

end OpenType

namespace Parameter

theorem assignment_of_beq {d : TypeDef} {args : List Ty} {declared : GenericParam} {i : Nat}
    {a : Ty} (ha : args[i]? = some a) {q : TyParam} (hq : (ofDeclared d declared i).param == q) :
    d.assignment args q = some a := by
  rw [← d.nameBlind_assignment args _ q hq]
  exact TypeDef.assignment_eq_some.mpr ⟨rfl, ha⟩

/-! ### Checks -/

section

variable {ts : TypeSystem} {d : TypeDef}

theorem specialViolation?_eq_none {p : Parameter} {t : Ty} :
    p.specialViolation? ts t = none ↔ p.special.MetBy ts t := by
  unfold specialViolation?
  constructor
  · intro h
    split at h
    · cases h
    next h₁ =>
      split at h
      · cases h
      next h₂ =>
        split at h
        · cases h
        next h₃ => exact ⟨by simpa using h₁, by simpa using h₂, by simpa using h₃⟩
  · rintro ⟨h₁, h₂, h₃⟩
    rw [if_neg (by simpa using h₁), if_neg (by simpa using h₂), if_neg (by simpa using h₃)]

theorem check_eq_ok {p : Parameter} {t : Ty} {known : Bindings} :
    p.check ts t known = .ok () ↔ p.special.MetBy ts t ∧
      ∀ k ∈ p.constraints, meets ts (k.apply (known.insert p.param t)) t = true := by
  rw [← specialViolation?_eq_none]
  unfold check violation?
  cases hs : p.specialViolation? ts t with
  | some reason => simp
  | none =>
    simp only [true_and]
    cases hf : (p.constraints.map fun k => k.apply (known.insert p.param t)).find?
        (fun k => !meets ts k t) with
    | none => simpa using hf
    | some k =>
      have hmem := List.mem_of_find?_eq_some hf
      obtain ⟨k', hk', rfl⟩ := List.mem_map.mp hmem
      have hfails := List.find?_some hf
      simp only [Option.map_some, reduceCtorEq, false_iff, not_forall]
      exact ⟨k', hk', by simpa using hfails⟩

theorem meets_eq (k t : Ty) : meets ts k t = (ts.unifyAssignable .empty k t).isSome := by
  unfold meets
  split
  next => rfl
  next hclosed =>
    simp only [TypeSystem.unifyAssignable, if_neg hclosed]
    cases ts.isAssignable k t <;> rfl

/-- A constraint is met if the candidate converts to what some substitution makes of it. -/
theorem meets_of_isAssignable_subst {σ : TyParam → Option Ty} (hσ : NameBlind σ) {k t : Ty}
    (h : ts.isAssignable (k.subst σ) t = true) : meets ts k t = true := by
  have hfree : Bindings.empty.LeavesOpen k t := fun _ _ _ hq => (nomatch hq)
  obtain ⟨b, hb⟩ := TypeSystem.exists_unifyAssignable hσ (Bindings.agree_empty σ) hfree h
  rw [meets_eq, hb]
  rfl

/-- A constraint that is met with all parameters replaced is met with some of them open. -/
theorem meets_of_isAssignable {f σ : TyParam → Option Ty} (hσ : NameBlind σ)
    (hfσ : ∀ q u, f q = some u → σ q = some u ∧ u.isOpen = false) {k t : Ty}
    (h : ts.isAssignable (k.subst σ) t = true) : meets ts (k.subst f) t = true := by
  rw [← Ty.subst_subst_of_le hfσ k] at h
  exact meets_of_isAssignable_subst hσ h

end

end Parameter

namespace ValidArguments

variable {ts : TypeSystem} {d : TypeDef} {args : List Ty}

theorem isOpen_of_getElem? (hv : ValidArguments ts d args) {i : Nat} {a : Ty}
    (ha : args[i]? = some a) : a.isOpen = false := hv.closed a (List.mem_of_getElem? ha)

/-- What is bound to the known arguments and to the one that is checked. -/
theorem find?_insert_le {known : List (Option Ty)} (hk : Approximates known args) {i : Nat}
    {declared : GenericParam} {a : Ty} (ha : args[i]? = some a) {q : TyParam} {u : Ty}
    (hq : ((OpenType.bindingsOf (Parameter.all d) known).insert
      (Parameter.ofDeclared d declared i).param a).find? q = some u) :
    d.assignment args q = some u := by
  rcases Bindings.find?_insert_eq_some.mp hq with ⟨hpq, rfl⟩ | ⟨-, hq⟩
  · exact Parameter.assignment_of_beq ha hpq
  · exact OpenType.find?_bindingsOf_le hk hq

/-- Valid arguments pass the check of each, whichever others are known. -/
theorem check_eq_ok (hv : ValidArguments ts d args) {known : List (Option Ty)}
    (hk : Approximates known args) {i : Nat} {declared : GenericParam} {a : Ty}
    (hi : d.params[i]? = some declared) (ha : args[i]? = some a) :
    (Parameter.ofDeclared d declared i).check ts a
      (OpenType.bindingsOf (Parameter.all d) known) = .ok () := by
  refine Parameter.check_eq_ok.mpr ⟨hv.special i declared a hi ha, fun k hmem => ?_⟩
  have hle : ∀ q u, ((OpenType.bindingsOf (Parameter.all d) known).insert
      (Parameter.ofDeclared d declared i).param a).find? q = some u →
      d.assignment args q = some u ∧ u.isOpen = false := by
    intro q u hq
    have hassigned := find?_insert_le hk ha hq
    exact ⟨hassigned, hv.isOpen_of_getElem? (TypeDef.assignment_eq_some.mp hassigned).2⟩
  exact Parameter.meets_of_isAssignable (d.nameBlind_assignment args) hle
    (hv.constraints i declared a hi ha k hmem)

end ValidArguments

/-- Whether the constraints of a definition mention only parameters that it declares. -/
def TypeDef.OwnConstraints (d : TypeDef) : Prop :=
  ∀ declared ∈ d.params, ∀ k ∈ declared.constraints, ∀ q ∈ k.occurrences,
    q.owner = d.name ∧ q.index < d.params.length

namespace TypeDef

variable {ts : TypeSystem} {d : TypeDef} {args : List Ty}

theorem isOpen_instantiate (hlen : args.length = d.params.length)
    (hclosed : ∀ a ∈ args, a.isOpen = false) {k : Ty}
    (hown : ∀ q ∈ k.occurrences, q.owner = d.name ∧ q.index < d.params.length) :
    (k.instantiate d.name args).isOpen = false := by
  apply Ty.isOpen_subst
  intro q hq
  obtain ⟨howner, hindex⟩ := hown q hq
  rw [← hlen] at hindex
  have hassigned : d.assignment args q = some args[q.index] :=
    assignment_eq_some.mpr ⟨howner, List.getElem?_eq_getElem hindex⟩
  change ((d.assignment args q).getD (.param q)).isOpen = false
  rw [hassigned]
  exact hclosed _ (List.getElem_mem hindex)

theorem find?_insert_bindingsOf (hlen : args.length = d.params.length) {i : Nat}
    {declared : GenericParam} {a : Ty} (ha : args[i]? = some a) (q : TyParam) :
    ((OpenType.bindingsOf (Parameter.all d) (args.map some)).insert
      (Parameter.ofDeclared d declared i).param a).find? q = d.assignment args q := by
  rw [Bindings.find?_insert, OpenType.find?_bindingsOf_map_some hlen]
  split
  next hpq => exact (Parameter.assignment_of_beq ha hpq).symm
  next => rfl

/-- Closed arguments that pass all checks with all of them known are valid. -/
theorem validArguments_of_check (hown : d.OwnConstraints) (hlen : args.length = d.params.length)
    (hclosed : ∀ a ∈ args, a.isOpen = false)
    (hcheck : ∀ (i : Nat) (declared : GenericParam) (a : Ty), d.params[i]? = some declared →
      args[i]? = some a → (Parameter.ofDeclared d declared i).check ts a
        (OpenType.bindingsOf (Parameter.all d) (args.map some)) = .ok ()) :
    ValidArguments ts d args := by
  refine ⟨hlen, hclosed, fun i declared a hi ha => ?_, fun i declared a hi ha k hk => ?_⟩
  · exact (Parameter.check_eq_ok.mp (hcheck i declared a hi ha)).1
  · have hmeets := (Parameter.check_eq_ok.mp (hcheck i declared a hi ha)).2 k hk
    have hmem := hown declared (List.mem_of_getElem? hi) k hk
    have happly : k.apply ((OpenType.bindingsOf (Parameter.all d) (args.map some)).insert
        (Parameter.ofDeclared d declared i).param a) = k.instantiate d.name args := by
      apply Ty.subst_congr
      intro q _
      exact congrArg (fun u => u.getD (.param q)) (find?_insert_bindingsOf hlen ha q)
    rw [happly] at hmeets
    unfold Parameter.meets at hmeets
    rw [if_neg (by rw [isOpen_instantiate hlen hclosed hmem]; exact Bool.false_ne_true)] at hmeets
    exact hmeets

end TypeDef

end Introspect

import Introspect.Path.Overload
import Introspect.Proofs.Ty.Assignability

/-!
Overloads and what they report. A method takes arguments that are as many as its parameters and each
convert to the type at their position. If no method takes them, the report is about the first method
with the right number of parameters, and names the first position at which that one refuses.
-/

namespace Introspect.Overload

variable {ts : TypeSystem} {m : MethodInfo} {argTypes : List Ty} {i : Nat}

/-! ### What a method takes -/

/-- Whether a method has a parameter at a position, and the argument there converts to its type. -/
def TakesAt (ts : TypeSystem) (m : MethodInfo) (argTypes : List Ty) (i : Nat) : Prop :=
  ∃ p t, m.params[i]? = some p ∧ argTypes[i]? = some t ∧ ts.isAssignable p.ty t = true

/-- Whether a method takes the arguments, all of them and no more. -/
def Takes (ts : TypeSystem) (m : MethodInfo) (argTypes : List Ty) : Prop :=
  m.arity = argTypes.length ∧ ∀ i < argTypes.length, TakesAt ts m argTypes i

/-- Whether a position is the first one at which none of some methods takes the argument. -/
structure FirstRefused (ts : TypeSystem) (methods : List MethodInfo) (argTypes : List Ty)
    (i : Nat) : Prop where
  lt : i < argTypes.length
  refused : ∀ m ∈ methods, ¬TakesAt ts m argTypes i
  before : ∀ j < i, ∃ m ∈ methods, TakesAt ts m argTypes j

instance (ts : TypeSystem) (m : MethodInfo) (argTypes : List Ty) (i : Nat) :
    Decidable (TakesAt ts m argTypes i) :=
  match hp : m.params[i]?, ht : argTypes[i]? with
  | some p, some t => decidable_of_iff (ts.isAssignable p.ty t = true) (by simp [TakesAt, hp, ht])
  | none, _ => isFalse (by simp [TakesAt, hp])
  | _, none => isFalse (by simp [TakesAt, ht])

instance (ts : TypeSystem) (methods : List MethodInfo) (argTypes : List Ty) (i : Nat) :
    Decidable (FirstRefused ts methods argTypes i) :=
  decidable_of_iff (i < argTypes.length ∧ (∀ m ∈ methods, ¬TakesAt ts m argTypes i) ∧
      ∀ j < i, ∃ m ∈ methods, TakesAt ts m argTypes j)
    ⟨fun h => ⟨h.1, h.2.1, h.2.2⟩, fun h => ⟨h.lt, h.refused, h.before⟩⟩

theorem takesAt_iff (hi : i < (m.params.zip argTypes).length) :
    TakesAt ts m argTypes i ↔
      ts.isAssignable (m.params.zip argTypes)[i].1.ty (m.params.zip argTypes)[i].2 = true := by
  obtain ⟨hp, ht⟩ := List.getElem?_zip_eq_some.mp (List.getElem?_eq_getElem hi)
  constructor
  · rintro ⟨p, t, hp', ht', h⟩
    rw [hp] at hp'
    rw [ht] at ht'
    cases hp'
    cases ht'
    exact h
  · exact fun h => ⟨_, _, hp, ht, h⟩

theorem length_zip_params (harity : m.arity = argTypes.length) :
    (m.params.zip argTypes).length = argTypes.length := by
  have hlength : m.params.length = argTypes.length := harity
  rw [List.length_zip, hlength, Nat.min_self]

theorem mismatch?_eq_some_iff (harity : m.arity = argTypes.length) :
    mismatch? ts m argTypes = some i ↔ FirstRefused ts [m] argTypes i := by
  have hlength := length_zip_params harity
  rw [mismatch?, List.findIdx?_eq_some_iff_getElem]
  constructor
  · rintro ⟨hi, hrefused, hbefore⟩
    refine ⟨hlength ▸ hi, List.forall_mem_singleton.mpr ?_, fun j hj => ⟨m, List.mem_cons_self, ?_⟩⟩
    · rw [takesAt_iff hi]
      simpa using hrefused
    · rw [takesAt_iff (by omega)]
      simpa using hbefore j hj
  · rintro ⟨hlt, hrefused, hbefore⟩
    have hi : i < (m.params.zip argTypes).length := by omega
    rw [List.forall_mem_singleton, takesAt_iff hi] at hrefused
    refine ⟨hi, by simpa using hrefused, fun j hj => ?_⟩
    obtain ⟨m', hm', htakes⟩ := hbefore j hj
    rw [List.mem_singleton.mp hm', takesAt_iff (by omega)] at htakes
    rw [Bool.not_eq_true, Bool.not_eq_false']
    exact htakes

theorem mismatch?_eq_none_iff (harity : m.arity = argTypes.length) :
    mismatch? ts m argTypes = none ↔ ∀ i < argTypes.length, TakesAt ts m argTypes i := by
  rw [mismatch?, List.findIdx?_eq_none_iff, List.forall_mem_iff_forall_getElem,
    ← length_zip_params harity]
  refine forall_congr' fun i => forall_congr' fun hi => ?_
  rw [takesAt_iff hi, Bool.not_eq_false']

theorem accepts_iff : accepts ts m argTypes = true ↔ Takes ts m argTypes := by
  rw [accepts, Bool.and_eq_true, beq_iff_eq, Option.isNone_iff_eq_none]
  exact and_congr_right mismatch?_eq_none_iff

/-- A method of the right arity that does not take the arguments refuses one first. -/
theorem exists_mismatch (harity : m.arity = argTypes.length) (hm : ¬Takes ts m argTypes) :
    ∃ i, mismatch? ts m argTypes = some i ∧ FirstRefused ts [m] argTypes i := by
  cases hi : mismatch? ts m argTypes with
  | none => exact absurd ⟨harity, (mismatch?_eq_none_iff harity).mp hi⟩ hm
  | some i => exact ⟨i, rfl, (mismatch?_eq_some_iff harity).mp hi⟩

/-! ### `void` as an argument -/

/-- A `void` that declares neither base nor interfaces converts to itself and to `object`, which so
takes every type. A method with one parameter takes a `void` if that is `void` or `object`. -/
theorem void_converts
    (hvoid : ∀ d, ts.find? "void" = some d → d.base = none ∧ d.interfaces = [])
    (hlimit : 0 < ts.limit) :
    (∀ u, ts.isAssignable u .void = true ↔ u = .void ∨ u = .object) ∧
    (∀ t, ts.isAssignable .object t = true) ∧
    ∀ (m : MethodInfo) (p : ParamInfo), m.params = [p] →
      (accepts ts m [.void] = true ↔ p.ty = .void ∨ p.ty = .object) := by
  have hconverts (u : Ty) : ts.isAssignable u .void = true ↔ u = .void ∨ u = .object := by
    rw [TypeSystem.isAssignable_void hvoid hlimit, Bool.or_eq_true]
    exact or_congr ⟨Ty.eq_void_of_isVoid, fun hu => hu ▸ rfl⟩
      ⟨Ty.eq_object_of_isObject, fun hu => hu ▸ rfl⟩
  refine ⟨hconverts, fun t => ?_, fun m p hp => ?_⟩
  · cases hv : t.isVoid with
    | true => exact Ty.eq_void_of_isVoid hv ▸ (hconverts .object).mpr (.inr rfl)
    | false => simp [TypeSystem.isAssignable, hv, Ty.object, Ty.plain, Ty.isObject]
  · simp [accepts, mismatch?, MethodInfo.arity, hp, hconverts]

namespace Sample

/-- `put(object)` -/
def putAny : MethodInfo := ⟨"put", [⟨"item", .object⟩], .void, false, fun _ _ => return .null⟩

theorem builtin_void : ∀ d, (Registry.builtin.types 1).find? "void" = some d →
    d.base = none ∧ d.interfaces = [] := by
  intro d hd
  cases hd
  exact ⟨rfl, rfl⟩

end Sample

theorem void_converts_builtin :
    (∀ d, (Registry.builtin.types 1).find? "void" = some d → d.base = none ∧ d.interfaces = []) ∧
    0 < (Registry.builtin.types 1).limit ∧
    (Registry.builtin.types 1).isAssignable .string .void = false ∧
    (Registry.builtin.types 1).isAssignable .object .void = true ∧
    accepts (Registry.builtin.types 1) Sample.putAny [.void] = true := by
  obtain ⟨hconverts, hobject, haccepts⟩ := void_converts Sample.builtin_void Nat.one_pos
  have hstring : (Registry.builtin.types 1).isAssignable .string .void ≠ true := by
    rw [Ne, hconverts]
    simp [Ty.string, Ty.void, Ty.object, Ty.plain]
  exact ⟨Sample.builtin_void, Nat.one_pos, Bool.eq_false_iff.mpr hstring, hobject .void,
    (haccepts Sample.putAny _ rfl).mpr (.inr rfl)⟩

/-- The `void` of the built-in definitions converts to a type other than itself, and selects a
method that takes an `object`. -/
theorem void_selects_object :
    (∀ d, (Registry.builtin.types 1).find? "void" = some d → d.base = none ∧ d.interfaces = []) ∧
    Ty.object ≠ .void ∧ (Registry.builtin.types 1).isAssignable .object .void = true ∧
    select (Registry.builtin.types 1) (.plain "Log") "put" [.method Sample.putAny] [.void] =
      .ok Sample.putAny :=
  ⟨Sample.builtin_void, by simp [Ty.void, Ty.object, Ty.plain], rfl, rfl⟩

/-! ### Selection -/

section

variable {methods : List MethodInfo} {members : List Member}

/-- The methods with as many parameters as there are arguments. -/
def ofArity (methods : List MethodInfo) (argTypes : List Ty) : List MethodInfo :=
  methods.filter fun m => m.arity == argTypes.length

/-- Where no method takes the arguments, what is reported is the first refusal of the first method
of their number. -/
theorem mismatchError_eq (owner : Ty) (name : String)
    (hnone : ∀ m ∈ methods, ¬Takes ts m argTypes) :
    ∃ text reason, mismatchError ts owner name methods argTypes = .overloadMismatch text
      ((ofArity methods argTypes).head?.bind fun m => mismatch? ts m argTypes) reason := by
  have hreport (describe : MethodInfo → Nat → String) :
      (methods.findSome? fun m => if m.arity == argTypes.length then
          (mismatch? ts m argTypes).map fun i => (i, describe m i) else none).map Prod.fst =
        (ofArity methods argTypes).head?.bind fun m => mismatch? ts m argTypes := by
    induction methods with
    | nil => rfl
    | cons m rest ih =>
      obtain ⟨hm, hrest⟩ := List.forall_mem_cons.mp hnone
      rw [ofArity, List.findSome?_cons, List.filter_cons]
      cases harity : m.arity == argTypes.length with
      | false => exact ih hrest
      | true =>
        obtain ⟨i, hi, -⟩ := exists_mismatch (eq_of_beq harity) hm
        rw [if_pos rfl, if_pos rfl, hi]
        exact hi.symm
  simp only [mismatchError]
  rw [← hreport]
  generalize List.findSome? _ methods = report?
  cases report? with
  | none => exact ⟨_, _, rfl⟩
  | some report => exact ⟨_, _, rfl⟩

/-- There is no method, or one that takes the arguments, or each of them refuses. -/
theorem select_cases (ts : TypeSystem) (owner : Ty) (name : String) (argTypes : List Ty)
    (hmethods : members.filterMap Member.method? = methods) :
    (methods = [] ∧
      select ts owner name members argTypes = .error (.memberNotFound owner.text name)) ∨
    (∃ m ∈ methods, Takes ts m argTypes ∧ select ts owner name members argTypes = .ok m) ∨
    (methods ≠ [] ∧ (∀ m ∈ methods, ¬Takes ts m argTypes) ∧
      select ts owner name members argTypes =
        .error (mismatchError ts owner name methods argTypes)) := by
  simp only [select, List.isEmpty_iff, hmethods]
  by_cases hempty : methods = []
  · exact .inl ⟨hempty, if_pos hempty⟩
  · rw [if_neg hempty]
    cases hfound : methods.find? fun m => accepts ts m argTypes with
    | some m =>
      have haccepts := List.find?_some (p := fun m => accepts ts m argTypes) hfound
      exact .inr (.inl ⟨m, List.mem_of_find?_eq_some hfound, accepts_iff.mp haccepts, rfl⟩)
    | none =>
      simp only [List.find?_eq_none, accepts_iff] at hfound
      exact .inr (.inr ⟨hempty, hfound, rfl⟩)

/-- What is reported of methods that all refuse: no position if none of them has the right number of
parameters, and else the position at which the first of these refuses first. -/
theorem report_cases (hnone : ∀ m ∈ methods, ¬Takes ts m argTypes) {index? : Option Nat}
    (hindex : ((ofArity methods argTypes).head?.bind fun m => mismatch? ts m argTypes) = index?) :
    (index? = none ∧ ofArity methods argTypes = []) ∨
      ∃ i m rest, index? = some i ∧ ofArity methods argTypes = m :: rest ∧
        FirstRefused ts [m] argTypes i := by
  cases hcandidates : ofArity methods argTypes with
  | nil =>
    rw [hcandidates] at hindex
    exact .inl ⟨hindex.symm, rfl⟩
  | cons m rest =>
    have hm : m ∈ ofArity methods argTypes := by
      rw [hcandidates]
      exact List.mem_cons_self
    obtain ⟨hmem, harity⟩ := List.mem_filter.mp hm
    rw [hcandidates, List.head?_cons, Option.bind_some] at hindex
    obtain ⟨i, hi, hfirst⟩ := exists_mismatch (eq_of_beq harity) (hnone m hmem)
    exact .inr ⟨i, m, rest, hindex.symm.trans hi, rfl, hfirst⟩

/-- A position at which all of some methods refuse is not before the first refusal of one of them,
and it is the first such position if it is that of a first refusal. -/
theorem FirstRefused.of_head {rest : List MethodInfo} (h : FirstRefused ts [m] argTypes i) :
    (FirstRefused ts (m :: rest) argTypes i ↔ ∀ m' ∈ rest, ¬TakesAt ts m' argTypes i) ∧
      ∀ j, FirstRefused ts (m :: rest) argTypes j → i ≤ j := by
  have hm : ¬TakesAt ts m argTypes i := h.refused m List.mem_cons_self
  have hbefore : ∀ j < i, TakesAt ts m argTypes j := fun j hj => by
    obtain ⟨m', hm', htakes⟩ := h.before j hj
    exact List.mem_singleton.mp hm' ▸ htakes
  constructor
  · refine ⟨fun hall => (List.forall_mem_cons.mp hall.refused).2, fun hrest => ⟨h.lt, ?_, ?_⟩⟩
    · exact List.forall_mem_cons.mpr ⟨hm, hrest⟩
    · exact fun j hj => ⟨m, List.mem_cons_self, hbefore j hj⟩
  · intro j hj
    by_contra hlt
    exact hj.refused m List.mem_cons_self (hbefore j (Nat.lt_of_not_le hlt))

theorem mem_methods : m ∈ members.filterMap Member.method? ↔ .method m ∈ members := by
  rw [List.mem_filterMap]
  constructor
  · rintro ⟨member, hmember, hm⟩
    cases member with
    | method _ => cases hm; exact hmember
    | _ => cases hm
  · exact fun hm => ⟨.method m, hm, rfl⟩

/-- The arguments are refused exactly if there are methods and none of them takes them all. The
report has no position exactly if no method has as many parameters. Otherwise it has the first
position at which the first method with as many parameters refuses. All methods with as many refuse
there first exactly if the others refuse at that position too, and in any case they refuse at none
before it. -/
theorem select_refuses (ts : TypeSystem) (owner : Ty) (name : String) (members : List Member)
    (argTypes : List Ty) :
    ((∃ text index? reason,
        select ts owner name members argTypes = .error (.overloadMismatch text index? reason)) ↔
      (∃ m, .method m ∈ members) ∧ ∀ m, .method m ∈ members → ¬Takes ts m argTypes) ∧
    ∀ text index? reason,
      select ts owner name members argTypes = .error (.overloadMismatch text index? reason) →
      (index? = none ↔ ∀ m, .method m ∈ members → m.arity ≠ argTypes.length) ∧
      ∀ i, index? = some i → i < argTypes.length ∧
        ∃ m rest, ofArity (members.filterMap Member.method?) argTypes = m :: rest ∧
          FirstRefused ts [m] argTypes i ∧
          (FirstRefused ts (m :: rest) argTypes i ↔ ∀ m' ∈ rest, ¬TakesAt ts m' argTypes i) ∧
          ∀ j, FirstRefused ts (m :: rest) argTypes j → i ≤ j := by
  generalize hmethods : members.filterMap Member.method? = methods
  have hmem (m : MethodInfo) : .method m ∈ members ↔ m ∈ methods := hmethods ▸ mem_methods.symm
  have harity : (∀ m ∈ methods, m.arity ≠ argTypes.length) ↔ ofArity methods argTypes = [] := by
    simp [ofArity, List.filter_eq_nil_iff]
  simp only [hmem, harity]
  rcases select_cases ts owner name argTypes hmethods with
    ⟨rfl, h⟩ | ⟨m, hm, htakes, h⟩ | ⟨hsome, hnone, h⟩
  · rw [h]
    refine ⟨⟨fun ⟨_, _, _, he⟩ => (nomatch he), fun ⟨⟨m, hm⟩, _⟩ => (nomatch hm)⟩, ?_⟩
    exact fun _ _ _ he => (nomatch he)
  · rw [h]
    refine ⟨⟨fun ⟨_, _, _, he⟩ => (nomatch he), fun ⟨_, hnone⟩ => absurd htakes (hnone m hm)⟩, ?_⟩
    exact fun _ _ _ he => (nomatch he)
  · obtain ⟨text, reason, hreport⟩ := mismatchError_eq owner name hnone
    rw [h, hreport]
    have hmethod : ∃ m, m ∈ methods := List.exists_mem_of_ne_nil methods hsome
    refine ⟨⟨fun _ => ⟨hmethod, hnone⟩, fun _ => ⟨_, _, _, rfl⟩⟩, ?_⟩
    intro _ index? _ he
    cases he
    rcases report_cases hnone rfl with ⟨hindex, hnil⟩ | ⟨i, m, rest, hindex, hcons, hfirst⟩
    · rw [hindex]
      exact ⟨⟨fun _ => hnil, fun _ => rfl⟩, fun _ hi => (nomatch hi)⟩
    · rw [hindex, hcons]
      refine ⟨⟨fun hi => (nomatch hi), fun hnil => (nomatch hnil)⟩, fun j hj => ?_⟩
      cases hj
      exact ⟨hfirst.lt, m, rest, rfl, hfirst, hfirst.of_head⟩

end

namespace Sample

/-- `put(int, string)` and `put(string, string)`. -/
def puts : List Member :=
  [.method ⟨"put", [⟨"key", .int⟩, ⟨"item", .string⟩], .void, false, fun _ _ => return .null⟩,
    .method ⟨"put", [⟨"key", .string⟩, ⟨"item", .string⟩], .void, false, fun _ _ => return .null⟩]

end Sample

/-- The first position that both methods refuse is the second one, but the report names the first,
at which the second method takes its argument. -/
theorem select_reports_taken_position :
    (∃ text reason, select (Registry.builtin.types 8) (.plain "Log") "put" Sample.puts
      [.string, .int] = .error (.overloadMismatch text (some 0) reason)) ∧
    (∃ m ∈ ofArity (Sample.puts.filterMap Member.method?) [.string, .int],
      TakesAt (Registry.builtin.types 8) m [.string, .int] 0) ∧
    FirstRefused (Registry.builtin.types 8)
      (ofArity (Sample.puts.filterMap Member.method?) [.string, .int]) [.string, .int] 1 :=
  ⟨⟨_, _, rfl⟩, by decide, by decide⟩

end Introspect.Overload

import Introspect.Proofs.Ty.Naming
import Introspect.Registry

/-!
Walks up a hierarchy. The supertypes of a type, where the walk to them ends, have all bases and
interfaces of each of them, so the whole base chain of a supertype is among them too. The supertypes
of arrays and lists are few, as no definition of a list has a base.
-/

namespace Introspect

/-- The type of the elements that an indexing promises. -/
def IndexKind.elem? : IndexKind → Option Ty
  | array elem => some elem
  | typedList elem => some elem
  | untypedList => none

theorem Ty.eq_object_of_isObject {t : Ty} (h : t.isObject = true) : t = .object := by
  cases t with
  | named n args =>
    cases args with
    | nil => rw [eq_of_beq h]; rfl
    | cons _ _ => cases h
  | _ => cases h

theorem Ty.eq_void_of_isVoid {t : Ty} (h : t.isVoid = true) : t = .void := by
  cases t with
  | named n args =>
    cases args with
    | nil => rw [eq_of_beq h]; rfl
    | cons _ _ => cases h
  | _ => cases h

theorem Ty.isParam_of_isVoid {t : Ty} (h : t.isVoid = true) : t.isParam = false := by
  cases t with
  | param p => cases h
  | _ => rfl

namespace TypeSystem

open Ty (Same)

variable {ts : TypeSystem} {t u : Ty}

/-! ### Closure -/

theorem contains_of_mem {types : List Ty} (h : t ∈ types) : types.contains t = true :=
  List.contains_iff_exists_mem_beq.mpr ⟨t, h, BEq.rfl⟩

theorem exists_same_of_mem {types types' : List Ty} (h : List.Forall₂ Same types types')
    (ht : t ∈ types) : ∃ u ∈ types', t.Same u := by
  have hcontains := contains_of_mem ht
  rw [Ty.contains_congr h BEq.rfl] at hcontains
  exact List.contains_iff_exists_mem_beq.mp hcontains

theorem contains_congr_same {types : List Ty} (h : t.Same u) :
    types.contains t = types.contains u :=
  Ty.contains_congr (List.forall₂_same.mpr fun _ _ => BEq.rfl) h

/-- A type that was seen answers for each queued one of another spelling. -/
theorem contains_of_cons {seen rest : List Ty} (ht : seen.contains t = true)
    (hu : (seen ++ t :: rest).contains u = true) : (seen ++ rest).contains u = true := by
  obtain ⟨v, hv, huv⟩ := List.contains_iff_exists_mem_beq.mp hu
  rw [contains_congr_same huv]
  rcases List.mem_append.mp hv with hv | hv
  · exact contains_of_mem (List.mem_append_left _ hv)
  · rcases List.mem_cons.mp hv with rfl | hv
    · rw [List.contains_append, ht, Bool.true_or]
    · exact contains_of_mem (List.mem_append_right _ hv)

/-- Up to the names of parameters a finished walk has everything that it queued, and the direct
supertypes of all that it has. -/
theorem contains_of_closure? {fuel : Nat} {queue found : List Ty}
    (h : ts.closure? fuel queue [] = some found) :
    (∀ t ∈ queue, found.contains t = true) ∧
      ∀ s ∈ found, ∀ u ∈ ts.directSupertypes s, found.contains u = true := by
  have hend := ts.closure?_induction
    (motive := fun queue' seen => (∀ t ∈ queue, (seen ++ queue').contains t = true) ∧
      ∀ s ∈ seen, ∀ u ∈ ts.directSupertypes s, (seen ++ queue').contains u = true)
    (fun t rest seen hseen ⟨hall, hclosed⟩ =>
      ⟨fun u hu => contains_of_cons hseen (hall u hu),
        fun s hs u hu => contains_of_cons hseen (hclosed s hs u hu)⟩)
    (fun t rest seen _ ⟨hall, hclosed⟩ => by
      have hsub {u : Ty} (hu : (seen ++ t :: rest).contains u = true) :
          (seen ++ [t] ++ (rest ++ ts.directSupertypes t)).contains u = true := by
        simp only [List.contains_append, List.contains_cons, Bool.or_eq_true] at hu ⊢
        tauto
      refine ⟨fun u hu => hsub (hall u hu), fun s hs u hu => ?_⟩
      rcases List.mem_append.mp hs with hs | hs
      · exact hsub (hclosed s hs u hu)
      · rw [List.mem_singleton.mp hs] at hu
        exact contains_of_mem (List.mem_append_right _ (List.mem_append_right _ hu)))
    h ⟨fun t ht => contains_of_mem ht, nofun⟩
  rwa [List.append_nil] at hend

/-- A walk stays in every set that has the direct supertypes of its members. -/
theorem mem_of_mem_closure? {bound : Ty → Prop}
    (hbound : ∀ s, bound s → ∀ u ∈ ts.directSupertypes s, bound u) {fuel : Nat}
    {queue found : List Ty} (h : ts.closure? fuel queue [] = some found)
    (hqueue : ∀ s ∈ queue, bound s) : ∀ s ∈ found, bound s := by
  have hend := ts.closure?_induction
    (motive := fun queue seen => (∀ s ∈ queue, bound s) ∧ ∀ s ∈ seen, bound s)
    (fun t rest seen _ ⟨hqueue, hseen⟩ => ⟨(List.forall_mem_cons.mp hqueue).2, hseen⟩)
    (fun t rest seen _ ⟨hqueue, hseen⟩ => by
      obtain ⟨ht, hrest⟩ := List.forall_mem_cons.mp hqueue
      exact ⟨List.forall_mem_append.mpr ⟨hrest, hbound t ht⟩,
        List.forall_mem_append.mpr ⟨hseen, fun s hs => List.mem_singleton.mp hs ▸ ht⟩⟩)
    h ⟨hqueue, nofun⟩
  exact hend.2

/-! ### The built-in definitions -/

/-- Whether the built-in definitions are there as they are. -/
def HasBuiltins (ts : TypeSystem) : Prop :=
  ∀ n d, Registry.builtin.find? n = some d → ts.find? n = some d

theorem hasBuiltins_of_definitions {r : Registry} {added : List TypeDef}
    (h : r.definitions = Registry.builtin.definitions ++ added) (limit : Nat) :
    (r.types limit).HasBuiltins := by
  intro n d hd
  change r.definitions.find? _ = some d
  rw [h, List.find?_append, Option.or_eq_some_iff]
  exact .inl hd

theorem HasBuiltins.find?_object (hts : ts.HasBuiltins) : ts.find? "object" =
    some { TypeDef.new "object" .classType with defaultConstructible := true } :=
  hts "object" _ rfl

theorem HasBuiltins.directSupertypes_object (hts : ts.HasBuiltins) :
    ts.directSupertypes .object = [] := by
  simp only [Ty.object, Ty.plain, directSupertypes, hts.find?_object]
  rfl

theorem HasBuiltins.directSupertypes_listInterface (hts : ts.HasBuiltins) :
    ts.directSupertypes .listInterface = [] := by
  have hd := hts "IList" Builtin.listInterface rfl
  simp only [Ty.listInterface, Ty.plain, directSupertypes, hd]
  rfl

theorem HasBuiltins.directSupertypes_enumerable (hts : ts.HasBuiltins) (elem : Ty) :
    ts.directSupertypes (.enumerable elem) = [] := by
  have hd := hts "IEnumerable" Builtin.enumerable rfl
  simp only [Ty.enumerable, directSupertypes, hd]
  rfl

theorem HasBuiltins.directSupertypes_list (hts : ts.HasBuiltins) (elem : Ty) :
    ts.directSupertypes (.list elem) = [.enumerable elem, .listInterface] := by
  have hd := hts "List" Builtin.list rfl
  simp only [Ty.list, directSupertypes, hd]
  rfl

theorem HasBuiltins.directSupertypes_arrayList (hts : ts.HasBuiltins) :
    ts.directSupertypes .arrayList = [.listInterface] := by
  have hd := hts "ArrayList" Builtin.arrayList rfl
  simp only [Ty.arrayList, Ty.plain, directSupertypes, hd]
  rfl

/-! ### Supertypes -/

/-- A type has its supertypes in each set that has it, `object` and the direct supertypes of its
members. -/
theorem mem_of_mem_supertypes {bound : Ty → Prop} (ht : bound t) (hobject : bound .object)
    (hbound : ∀ s, bound s → ∀ u ∈ ts.directSupertypes s, bound u) :
    ∀ s ∈ ts.supertypes t, bound s := by
  intro s hs
  unfold supertypes supertypes? at hs
  cases hfound : ts.closure? ts.limit [t] [] with
  | none =>
    rw [hfound, Option.map_none, Option.getD_none, List.mem_singleton] at hs
    exact hs ▸ ht
  | some found =>
    have hall := mem_of_mem_closure? hbound hfound (by simpa using ht)
    rw [hfound, Option.map_some, Option.getD_some] at hs
    split at hs
    · exact hall s hs
    · rcases List.mem_append.mp hs with hs | hs
      · exact hall s hs
      · rw [List.mem_singleton.mp hs]
        exact hobject

/-- The supertypes of a type have the direct supertypes of each of them. -/
theorem contains_directSupertype (hts : ts.HasBuiltins) {sups : List Ty}
    (hsups : ts.supertypes? t = some sups) {s : Ty} (hs : sups.contains s = true)
    (hu : u ∈ ts.directSupertypes s) : sups.contains u = true := by
  obtain ⟨found, hfound, hmap⟩ := Option.map_eq_some_iff.mp hsups
  obtain ⟨-, hclosed⟩ := contains_of_closure? hfound
  obtain ⟨s', hs', hsame⟩ := List.contains_iff_exists_mem_beq.mp hs
  obtain ⟨u', hu', huu'⟩ := exists_same_of_mem (ts.directSupertypes_congr hsame) hu
  have hsub : ∀ v ∈ found, v ∈ sups := by
    intro v hv
    rw [← hmap]
    split
    · exact hv
    · exact List.mem_append_left _ hv
  have hcases : s' ∈ found ∨ s' = .object := by
    rw [← hmap] at hs'
    split at hs'
    · exact .inl hs'
    · simpa using hs'
  rcases hcases with hs' | rfl
  · obtain ⟨v, hv, huv⟩ := List.contains_iff_exists_mem_beq.mp (hclosed s' hs' u' hu')
    exact List.contains_iff_exists_mem_beq.mpr ⟨v, hsub v hv, BEq.trans huu' huv⟩
  · -- `object` may stand at the end without having had its turn, but it has no supertypes.
    rw [hts.directSupertypes_object] at hu'
    cases hu'

theorem mem_directSupertypes_of_base? {base : Ty} (h : ts.base? t = some base) :
    base ∈ ts.directSupertypes t := by
  cases t with
  | named n args =>
    obtain ⟨d, hd, h⟩ := Option.bind_eq_some_iff.mp h
    obtain ⟨b, hb, h⟩ := Option.bind_eq_some_iff.mp h
    cases h
    simp only [directSupertypes, hd]
    exact List.mem_map_of_mem (List.mem_append_left _ (by simp [hb]))
  | _ => cases h

/-- A climb stays in every set that has the bases of its members. -/
theorem mem_of_mem_climb? {bound : Ty → Prop}
    (hbound : ∀ s b, bound s → ts.base? s = some b → bound b) {fuel : Nat} {chain found : List Ty}
    (h : ts.climb? fuel t chain = some found) (ht : bound t) (hchain : ∀ s ∈ chain, bound s) :
    ∀ s ∈ found, bound s := by
  induction fuel generalizing t chain with
  | zero => cases h
  | succ fuel ih =>
    simp only [climb?] at h
    split at h
    next =>
      cases h
      exact hchain
    next base hbase =>
      split at h
      · cases h
        exact hchain
      · have hb := hbound t base ht hbase
        exact ih h hb (List.forall_mem_append.mpr ⟨hchain, List.forall_mem_singleton.mpr hb⟩)

/-- The supertypes of a type have the whole base chain of each of them. -/
theorem contains_of_mem_baseChain (hts : ts.HasBuiltins) {sups : List Ty}
    (hsups : ts.supertypes? t = some sups) {s : Ty} (hs : sups.contains s = true) :
    ∀ b ∈ ts.baseChain s, sups.contains b = true := by
  have hself : ∀ b ∈ [s], sups.contains b = true := List.forall_mem_singleton.mpr hs
  have hbase (u b : Ty) (hu : sups.contains u = true) (hb : ts.base? u = some b) :
      sups.contains b = true :=
    contains_directSupertype hts hsups hu (mem_directSupertypes_of_base? hb)
  unfold baseChain
  cases hfound : ts.baseChain? s with
  | none => exact hself
  | some found => exact mem_of_mem_climb? hbase hfound hs hself

theorem HasBuiltins.baseChain_object (hts : ts.HasBuiltins) : ts.baseChain .object = [.object] := by
  have hbase : ts.base? .object = none := by
    simp only [Ty.object, Ty.plain, base?, hts.find?_object]
    rfl
  unfold baseChain baseChain?
  cases ts.limit with
  | zero => rfl
  | succ limit => simp only [climb?, hbase, Option.getD_some]

/-! ### Convertibility -/

/-- What a value of a type may be seen as is `object` or one of the supertypes. -/
theorem contains_of_isAssignable {sups : List Ty} (hsups : ts.supertypes? u = some sups)
    (h : ts.isAssignable t u = true) (ho : t.isObject = false) : sups.contains t = true := by
  obtain ⟨s, hs, hts⟩ := ts.exists_supertype h ho
  rw [supertypes, hsups, Option.getD_some] at hs
  exact List.contains_iff_exists_mem_beq.mpr ⟨s, hs, hts⟩

/-- Everything with a hierarchy that ends converts to `object`, `void` included. -/
theorem isAssignable_object (h : u.isVoid = true → (ts.supertypes? u).isSome = true) :
    ts.isAssignable .object u = true := by
  unfold isAssignable
  cases hv : u.isVoid with
  | false => simp [Ty.object, Ty.plain, Ty.isObject]
  | true =>
    obtain ⟨sups, hsups⟩ := Option.isSome_iff_exists.mp (h hv)
    obtain ⟨found, -, hmap⟩ := Option.map_eq_some_iff.mp hsups
    have hobject : sups.contains .object = true := by
      rw [← hmap, Ty.isParam_of_isVoid hv, Bool.false_or]
      split
      next hc => exact hc
      next => exact contains_of_mem (List.mem_append_right _ (List.mem_singleton_self _))
    rw [supertypes, hsups, Option.getD_some, hobject, Bool.or_true]

/-- What a value of a type may be seen as is, up to names, in each set that has the type, `object`
and the direct supertypes of its members. -/
theorem exists_same_of_isAssignable {bound : Ty → Prop} (hu : bound u) (hobject : bound .object)
    (hbound : ∀ s, bound s → ∀ v ∈ ts.directSupertypes s, bound v)
    (h : ts.isAssignable t u = true) : ∃ s, t.Same s ∧ bound s := by
  cases ho : t.isObject with
  | true =>
    rw [Ty.eq_object_of_isObject ho]
    exact ⟨.object, BEq.rfl, hobject⟩
  | false =>
    obtain ⟨s, hs, hsame⟩ := ts.exists_supertype h ho
    exact ⟨s, hsame, mem_of_mem_supertypes hu hobject hbound s hs⟩

/-! ### Sequences -/

/-- The types that an array or a list may be seen as, with the type of its elements if there is
one. -/
inductive IsSequence (elem? : Option Ty) : Ty → Prop where
  | array {elem : Ty} (h : elem? = some elem) : IsSequence elem? (.array elem)
  | list {elem : Ty} (h : elem? = some elem) : IsSequence elem? (.list elem)
  | enumerable {elem : Ty} (h : elem? = some elem) : IsSequence elem? (.enumerable elem)
  | arrayList : IsSequence elem? .arrayList
  | listInterface : IsSequence elem? .listInterface
  | object : IsSequence elem? .object

variable {elem? : Option Ty}

theorem IsSequence.directSupertypes (hts : ts.HasBuiltins) (ht : IsSequence elem? t) :
    ∀ u ∈ ts.directSupertypes t, IsSequence elem? u := by
  intro u hu
  cases ht with
  | array h =>
    simp only [TypeSystem.directSupertypes, List.mem_cons, List.not_mem_nil, or_false] at hu
    rcases hu with rfl | rfl
    · exact .enumerable h
    · exact .listInterface
  | list h =>
    simp only [hts.directSupertypes_list, List.mem_cons, List.not_mem_nil, or_false] at hu
    rcases hu with rfl | rfl
    · exact .enumerable h
    · exact .listInterface
  | enumerable h =>
    rw [hts.directSupertypes_enumerable] at hu
    cases hu
  | arrayList =>
    rw [hts.directSupertypes_arrayList, List.mem_singleton] at hu
    rw [hu]
    exact .listInterface
  | listInterface =>
    rw [hts.directSupertypes_listInterface] at hu
    cases hu
  | object =>
    rw [hts.directSupertypes_object] at hu
    cases hu

theorem IsSequence.supertypes (hts : ts.HasBuiltins) (ht : IsSequence elem? t) :
    ∀ u ∈ ts.supertypes t, IsSequence elem? u :=
  mem_of_mem_supertypes ht .object fun _ hs => hs.directSupertypes hts

/-- Of the built-in definitions only that of the list promises a type of elements. -/
theorem IsSequence.declaredIndex? (hts : ts.HasBuiltins) (ht : IsSequence elem? t)
    {kind : IndexKind} {elem : Ty} (h : ts.declaredIndex? t = some kind)
    (helem : kind.elem? = some elem) : elem? = some elem := by
  cases ht with
  | array => cases h
  | list ha =>
    have hd := hts "List" Builtin.list rfl
    simp only [Ty.list, TypeSystem.declaredIndex?, hd] at h
    cases h
    cases helem
    exact ha
  | enumerable =>
    have hd := hts "IEnumerable" Builtin.enumerable rfl
    simp only [Ty.enumerable, TypeSystem.declaredIndex?, hd] at h
    cases h
  | arrayList =>
    have hd := hts "ArrayList" Builtin.arrayList rfl
    simp only [Ty.arrayList, Ty.plain, TypeSystem.declaredIndex?, hd] at h
    cases h
    cases helem
  | listInterface =>
    have hd := hts "IList" Builtin.listInterface rfl
    simp only [Ty.listInterface, Ty.plain, TypeSystem.declaredIndex?, hd] at h
    cases h
    cases helem
  | object =>
    simp only [Ty.object, Ty.plain, TypeSystem.declaredIndex?, hts.find?_object] at h
    cases h

/-- Of what a list or an array may be seen as, only those that have the type of its elements promise
a type of elements. -/
theorem IsSequence.indexKind? (hts : ts.HasBuiltins) (ht : IsSequence elem? t) {kind : IndexKind}
    {elem : Ty} (h : ts.indexKind? t = some kind) (helem : kind.elem? = some elem) :
    elem? = some elem := by
  have hnamed (hne : ∀ a, t ≠ .array a) : elem? = some elem := by
    rw [indexKind?_eq_findSome? ts hne] at h
    obtain ⟨s, hs, hkind⟩ := List.exists_of_findSome?_eq_some h
    exact (ht.supertypes hts s hs).declaredIndex? hts hkind helem
  cases ht with
  | array ha =>
    cases h
    cases helem
    exact ha
  | _ => exact hnamed nofun

/-- An indexing that promises a type of elements promises that of the sequence itself. -/
theorem elem_of_isAssignable (hts : ts.HasBuiltins) (hu : IsSequence elem? u)
    (h : ts.isAssignable t u = true) {kind : IndexKind} (hkind : ts.indexKind? t = some kind)
    {a : Ty} (ha : kind.elem? = some a) : ∃ elem, elem? = some elem ∧ a.Same elem := by
  -- What the sequence is seen as is, up to names, one of the types above.
  obtain ⟨s, hts', hs⟩ :=
    exists_same_of_isAssignable hu .object (fun _ hs => hs.directSupertypes hts) h
  have hrel := ts.indexKind?_congr hts'
  rw [hkind] at hrel
  generalize hkind' : ts.indexKind? s = kind' at hrel
  cases hrel with
  | @some _ kind' hrel =>
    cases hrel with
    | @array _ b hab =>
      cases ha
      exact ⟨b, hs.indexKind? hts hkind' rfl, hab⟩
    | @typedList _ b hab =>
      cases ha
      exact ⟨b, hs.indexKind? hts hkind' rfl, hab⟩
    | untypedList => cases ha

end TypeSystem

end Introspect

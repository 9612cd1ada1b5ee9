import Introspect.Proofs.Unification

/-!
The names of parameters are only for display. Whatever is asked of a type has one answer for all
spellings of it, and what is made of equal types is equal: supertypes, convertibility and the
bindings of unification.
-/

namespace Introspect

/-! ### Related lists and options -/

section

variable {α β γ δ : Type} {R : α → β → Prop} {S : γ → δ → Prop}

theorem rel_bind {x : Option α} {y : Option β} (h : Option.Rel R x y) {f : α → Option γ}
    {g : β → Option δ} (hfg : ∀ a b, R a b → Option.Rel S (f a) (g b)) :
    Option.Rel S (x.bind f) (y.bind g) := by
  cases h with
  | none => exact .none
  | some h => exact hfg _ _ h

theorem rel_isSome {x : Option α} {y : Option β} (h : Option.Rel R x y) :
    x.isSome = y.isSome := by
  cases h <;> rfl

theorem rel_getElem? {as : List α} {bs : List β} (h : List.Forall₂ R as bs) (i : Nat) :
    Option.Rel R as[i]? bs[i]? := by
  induction h generalizing i with
  | nil => exact .none
  | cons hab _ ih =>
    cases i with
    | zero => exact .some hab
    | succ i => exact ih i

theorem rel_findSome? {as : List α} {bs : List β} (h : List.Forall₂ R as bs) {f : α → Option γ}
    {g : β → Option δ} (hfg : ∀ a b, R a b → Option.Rel S (f a) (g b)) :
    Option.Rel S (as.findSome? f) (bs.findSome? g) := by
  induction h with
  | nil => exact .none
  | @cons a b as bs hab _ ih =>
    have hhead := hfg a b hab
    rw [List.findSome?_cons, List.findSome?_cons]
    generalize f a = x at hhead ⊢
    generalize g b = y at hhead ⊢
    cases hhead with
    | none => exact ih
    | some h => exact .some h

theorem all_congr {as : List α} {bs : List β} (h : List.Forall₂ R as bs) {f : α → Bool}
    {g : β → Bool} (hfg : ∀ a b, R a b → f a = g b) : as.all f = bs.all g := by
  induction h with
  | nil => rfl
  | cons hab _ ih => rw [List.all_cons, List.all_cons, hfg _ _ hab, ih]

theorem forall₂_zip_left {as : List α} {bs : List β} (h : List.Forall₂ R as bs) (cs : List γ) :
    List.Forall₂ (fun x y => x.1 = y.1 ∧ R x.2 y.2) (cs.zip as) (cs.zip bs) := by
  induction h generalizing cs with
  | nil =>
    rw [List.zip_nil_right, List.zip_nil_right]
    exact .nil
  | cons hab _ ih =>
    cases cs with
    | nil => exact .nil
    | cons c cs => exact .cons ⟨rfl, hab⟩ (ih cs)

end

theorem forall₂_refl_map {α β γ : Type} {S : β → γ → Prop} {f : α → β} {g : α → γ} {l : List α}
    (h : ∀ a ∈ l, S (f a) (g a)) : List.Forall₂ S (l.map f) (l.map g) := by
  rw [List.forall₂_map_left_iff, List.forall₂_map_right_iff, List.forall₂_same]
  exact h

namespace Ty

variable {t t' u u' : Ty}

/-! ### Types -/

theorem occurrences_congr (h : t.Same u) :
    List.Forall₂ (fun p q => (p == q) = true) t.occurrences u.occurrences := by
  refine indBeq (motive := fun t u =>
    List.Forall₂ (fun p q => (p == q) = true) t.occurrences u.occurrences) ?_ ?_ ?_ t u h
  · intro n as bs hargs
    rw [occurrences_named, occurrences_named]
    exact List.rel_flatMap hargs fun _ _ h => h
  · exact fun a b hab => hab
  · exact fun p q hpq => .cons hpq .nil

theorem isOpen_congr (h : t.Same u) : t.isOpen = u.isOpen := by
  have hoccurrences := occurrences_congr h
  unfold isOpen
  generalize t.occurrences = ps at hoccurrences ⊢
  generalize u.occurrences = qs at hoccurrences ⊢
  cases hoccurrences <;> rfl

/-- Equal types have the same shape. -/
theorem same_cases (h : t.Same u) :
    (∃ n as bs, t = named n as ∧ u = named n bs ∧ List.Forall₂ Same as bs) ∨
      (∃ a b, t = array a ∧ u = array b ∧ a.Same b) ∨
      ∃ p q : TyParam, t = param p ∧ u = param q ∧ (p == q) = true := by
  cases t with
  | named n as =>
    cases u with
    | named m bs =>
      rw [Same, beq_named, Bool.and_eq_true, beq_iff_eq, beq_iff_forall₂] at h
      exact .inl ⟨n, as, bs, rfl, h.1 ▸ rfl, h.2⟩
    | _ => cases h
  | array a =>
    cases u with
    | array b => exact .inr (.inl ⟨a, b, rfl, rfl, h⟩)
    | _ => cases h
  | param p =>
    cases u with
    | param q => exact .inr (.inr ⟨p, q, rfl, rfl, h⟩)
    | _ => cases h

theorem isParam_congr (h : t.Same u) : t.isParam = u.isParam := by
  obtain ⟨_, _, _, rfl, rfl, -⟩ | ⟨_, _, rfl, rfl, -⟩ | ⟨_, _, rfl, rfl, -⟩ := same_cases h
  all_goals rfl

theorem isObject_congr (h : t.Same u) : t.isObject = u.isObject := by
  obtain ⟨n, as, bs, rfl, rfl, hargs⟩ | ⟨_, _, rfl, rfl, -⟩ | ⟨_, _, rfl, rfl, -⟩ := same_cases h
  · cases hargs <;> rfl
  all_goals rfl

theorem isVoid_congr (h : t.Same u) : t.isVoid = u.isVoid := by
  obtain ⟨n, as, bs, rfl, rfl, hargs⟩ | ⟨_, _, rfl, rfl, -⟩ | ⟨_, _, rfl, rfl, -⟩ := same_cases h
  · cases hargs <;> rfl
  all_goals rfl

theorem contains_congr {ts us : List Ty} (hts : List.Forall₂ Same ts us) (h : t.Same u) :
    ts.contains t = us.contains u := by
  induction hts with
  | nil => rfl
  | @cons a b as bs hab _ ih =>
    have hhead : (t == a) = (u == b) := (BEq.congr_left h).trans (BEq.congr_right hab)
    rw [List.contains_cons, List.contains_cons, hhead, ih]

theorem instantiate_congr (n : String) {as bs : List Ty} (hargs : List.Forall₂ Same as bs)
    (h : t.Same u) : (t.instantiate n as).Same (u.instantiate n bs) := by
  refine subst_congr_same (fun p q hpq => ?_) h
  obtain ⟨hindex, howner⟩ := TyParam.beq_iff.mp hpq
  rw [hindex, howner]
  split
  · exact rel_getElem? hargs q.index
  · exact .none

end Ty

/-- The same indexing with equal types of elements. -/
inductive IndexKind.Same : IndexKind → IndexKind → Prop where
  | array {a b : Ty} (h : a.Same b) : Same (.array a) (.array b)
  | typedList {a b : Ty} (h : a.Same b) : Same (.typedList a) (.typedList b)
  | untypedList : Same .untypedList .untypedList

namespace TypeSystem

open Ty (Same)

variable (ts : TypeSystem) {t t' u u' : Ty}

/-! ### Supertypes -/

theorem directSupertypes_congr (h : t.Same u) :
    List.Forall₂ Same (ts.directSupertypes t) (ts.directSupertypes u) := by
  obtain ⟨n, as, bs, rfl, rfl, hargs⟩ | ⟨a, b, rfl, rfl, hab⟩ | ⟨_, _, rfl, rfl, -⟩ :=
    Ty.same_cases h
  · simp only [directSupertypes]
    split
    · exact forall₂_refl_map fun _ _ => Ty.instantiate_congr _ hargs BEq.rfl
    · exact .nil
  · exact .cons (Ty.same_named (.cons hab .nil)) (.cons BEq.rfl .nil)
  · exact .nil

theorem closure?_congr (fuel : Nat) {queue queue' seen seen' : List Ty}
    (hqueue : List.Forall₂ Same queue queue') (hseen : List.Forall₂ Same seen seen') :
    Option.Rel (List.Forall₂ Same) (ts.closure? fuel queue seen)
      (ts.closure? fuel queue' seen') := by
  induction fuel generalizing queue queue' seen seen' with
  | zero =>
    cases hqueue with
    | nil => exact .some hseen
    | cons _ _ => exact .none
  | succ fuel ih =>
    cases hqueue with
    | nil => exact .some hseen
    | cons hab hrest =>
      simp only [closure?, Ty.contains_congr hseen hab]
      split
      · exact ih hrest hseen
      · exact ih (List.rel_append hrest (ts.directSupertypes_congr hab))
          (List.rel_append hseen (.cons hab .nil))

theorem supertypes_congr (h : t.Same u) :
    List.Forall₂ Same (ts.supertypes t) (ts.supertypes u) := by
  -- Both searches take the same turns, so they also run out of turns together.
  have hfound := ts.closure?_congr ts.limit (.cons h .nil) .nil
  unfold supertypes supertypes?
  generalize ts.closure? ts.limit [t] [] = x at hfound ⊢
  generalize ts.closure? ts.limit [u] [] = y at hfound ⊢
  cases hfound with
  | none => exact .cons h .nil
  | @some found found' hfound =>
    have hobject : found.contains Ty.object = found'.contains Ty.object :=
      Ty.contains_congr hfound BEq.rfl
    simp only [Option.map_some, Option.getD_some, Ty.isParam_congr h, hobject]
    split
    · exact hfound
    · exact List.rel_append hfound (.cons BEq.rfl .nil)

theorem isAssignable_congr (ht : t.Same t') (hu : u.Same u') :
    ts.isAssignable t u = ts.isAssignable t' u' := by
  have hbeq : (t == u) = (t' == u') := (BEq.congr_left ht).trans (BEq.congr_right hu)
  rw [isAssignable, isAssignable, hbeq, Ty.isObject_congr ht, Ty.isVoid_congr hu,
    Ty.contains_congr (ts.supertypes_congr hu) ht]

/-! ### Base classes -/

theorem base?_congr (h : t.Same u) : Option.Rel Same (ts.base? t) (ts.base? u) := by
  obtain ⟨n, as, bs, rfl, rfl, hargs⟩ | ⟨_, _, rfl, rfl, -⟩ | ⟨_, _, rfl, rfl, -⟩ :=
    Ty.same_cases h
  · change Option.Rel Same
      ((ts.find? n).bind fun d => d.base.bind fun base => some (base.instantiate d.name as))
      ((ts.find? n).bind fun d => d.base.bind fun base => some (base.instantiate d.name bs))
    rcases ts.find? n with _ | d
    · exact .none
    · rw [Option.bind_some, Option.bind_some]
      rcases d.base with _ | base
      · exact .none
      · exact .some (Ty.instantiate_congr d.name hargs BEq.rfl)
  · exact .none
  · exact .none

theorem climb?_congr (fuel : Nat) {chain chain' : List Ty} (h : t.Same u)
    (hchain : List.Forall₂ Same chain chain') :
    Option.Rel (List.Forall₂ Same) (ts.climb? fuel t chain) (ts.climb? fuel u chain') := by
  induction fuel generalizing t u chain chain' with
  | zero => exact .none
  | succ fuel ih =>
    have hbase := ts.base?_congr h
    simp only [climb?]
    generalize ts.base? t = x at hbase ⊢
    generalize ts.base? u = y at hbase ⊢
    cases hbase with
    | none => exact .some hchain
    | @some base base' hbase =>
      simp only [Ty.contains_congr hchain hbase]
      split
      · exact .some hchain
      · exact ih hbase (List.rel_append hchain (.cons hbase .nil))

theorem baseChain_congr (h : t.Same u) : List.Forall₂ Same (ts.baseChain t) (ts.baseChain u) := by
  have hfound := ts.climb?_congr ts.limit h (.cons h .nil)
  unfold baseChain baseChain?
  generalize ts.climb? ts.limit t [t] = x at hfound ⊢
  generalize ts.climb? ts.limit u [u] = y at hfound ⊢
  cases hfound with
  | none => exact .cons h .nil
  | some hfound => exact hfound

/-! ### Indexing -/

/-- The indexing that the definition of a type declares. -/
def declaredIndex? : Ty → Option IndexKind
  | .named n args =>
    (ts.find? n).bind fun d =>
      match d.indexer with
      | .typed => some (.typedList (args.head?.getD .object))
      | .untyped => some .untypedList
      | .none => none
  | _ => none

/-- The indexing of every type but an array is the first that a supertype declares. -/
theorem indexKind?_eq_findSome? {t : Ty} (ht : ∀ elem, t ≠ .array elem) :
    ts.indexKind? t = (ts.supertypes t).findSome? ts.declaredIndex? := by
  cases t with
  | array elem => exact absurd rfl (ht elem)
  | named n args => rfl
  | param p => rfl

theorem declaredIndex?_congr (h : t.Same u) :
    Option.Rel IndexKind.Same (ts.declaredIndex? t) (ts.declaredIndex? u) := by
  obtain ⟨n, as, bs, rfl, rfl, hargs⟩ | ⟨_, _, rfl, rfl, -⟩ | ⟨_, _, rfl, rfl, -⟩ :=
    Ty.same_cases h
  · have hhead : (as.head?.getD .object).Same (bs.head?.getD .object) := by
      cases hargs with
      | nil => exact BEq.rfl
      | cons hab _ => exact hab
    simp only [declaredIndex?]
    rcases ts.find? n with _ | d
    · exact .none
    · rw [Option.bind_some, Option.bind_some]
      cases d.indexer with
      | typed => exact .some (.typedList hhead)
      | untyped => exact .some .untypedList
      | none => exact .none
  · exact .none
  · exact .none

theorem indexKind?_congr (h : t.Same u) :
    Option.Rel IndexKind.Same (ts.indexKind? t) (ts.indexKind? u) := by
  have hfound := rel_findSome? (ts.supertypes_congr h) fun _ _ hab => ts.declaredIndex?_congr hab
  obtain ⟨n, as, bs, rfl, rfl, -⟩ | ⟨_, _, rfl, rfl, hab⟩ | ⟨_, _, rfl, rfl, -⟩ := Ty.same_cases h
  · exact hfound
  · exact .some (.array hab)
  · exact hfound

/-! ### Kinds -/

theorem isValueType_congr (h : t.Same u) : ts.isValueType t = ts.isValueType u := by
  obtain ⟨_, _, _, rfl, rfl, -⟩ | ⟨_, _, rfl, rfl, -⟩ | ⟨_, _, rfl, rfl, -⟩ := Ty.same_cases h
  all_goals rfl

theorem isReferenceType_congr (h : t.Same u) : ts.isReferenceType t = ts.isReferenceType u := by
  obtain ⟨_, _, _, rfl, rfl, -⟩ | ⟨_, _, rfl, rfl, -⟩ | ⟨_, _, rfl, rfl, -⟩ := Ty.same_cases h
  all_goals rfl

theorem hasDefaultConstructor_congr (h : t.Same u) :
    ts.hasDefaultConstructor t = ts.hasDefaultConstructor u := by
  obtain ⟨_, _, _, rfl, rfl, -⟩ | ⟨_, _, rfl, rfl, -⟩ | ⟨_, _, rfl, rfl, -⟩ := Ty.same_cases h
  all_goals rfl

end TypeSystem

/-! ### Bindings -/

/-- Whether equal parameters have equal types, in one order. -/
def Bindings.Same (b b' : Bindings) : Prop :=
  List.Forall₂ (fun e e' => (e.1 == e'.1) = true ∧ e.2.Same e'.2) b.entries b'.entries

namespace Bindings

variable {b b' : Bindings}

theorem same_empty : empty.Same empty := .nil

theorem Same.find? (hb : b.Same b') {p q : TyParam} (hpq : p == q) :
    Option.Rel Ty.Same (b.find? p) (b'.find? q) := by
  unfold Bindings.Same at hb
  unfold Bindings.find?
  generalize b.entries = es at hb ⊢
  generalize b'.entries = es' at hb ⊢
  induction hb with
  | nil => exact .none
  | @cons e e' es es' he _ ih =>
    have hhead : (e.1 == p) = (e'.1 == q) := (BEq.congr_left he.1).trans (BEq.congr_right hpq)
    simp only [Assoc.find?, hhead]
    split
    · exact .some he.2
    · exact ih

theorem compare_congr {p p' q q' : TyParam} (hp : p == p') (hq : q == q') :
    compare p q = compare p' q' := by
  obtain ⟨hindex, howner⟩ := TyParam.beq_iff.mp hp
  obtain ⟨hindex', howner'⟩ := TyParam.beq_iff.mp hq
  change (compare p.owner q.owner).then (compare p.index q.index) =
    (compare p'.owner q'.owner).then (compare p'.index q'.index)
  rw [hindex, howner, hindex', howner']

theorem Same.insert (hb : b.Same b') {p q : TyParam} (hpq : p == q) {t u : Ty} (h : t.Same u) :
    (b.insert p t).Same (b'.insert q u) := by
  unfold Bindings.Same at hb
  unfold Bindings.Same Bindings.insert
  generalize b.entries = es at hb ⊢
  generalize b'.entries = es' at hb ⊢
  induction hb with
  | nil => exact .cons ⟨hpq, h⟩ .nil
  | @cons e e' es es' he hes ih =>
    have hhead : (e.1 == p) = (e'.1 == q) := (BEq.congr_left he.1).trans (BEq.congr_right hpq)
    simp only [Assoc.put, hhead, compare_congr hpq he.1]
    split
    · exact .cons ⟨he.1, h⟩ hes
    · split
      · exact .cons ⟨hpq, h⟩ (.cons he hes)
      · exact .cons he ih

theorem Same.erase (hb : b.Same b') (p : TyParam) : (b.erase p).Same (b'.erase p) := by
  refine List.rel_filter (fun {e e'} he => ?_) hb
  simp only [Bool.not_eq_true', BEq.congr_left he.1]

theorem Same.apply (hb : b.Same b') {t u : Ty} (h : t.Same u) : (t.apply b).Same (u.apply b') :=
  Ty.subst_congr_same (fun _ _ hpq => hb.find? hpq) h

end Bindings

/-! ### Unification -/

namespace Ty

theorem unifyAll_congr {ps ps' ts ts' : List Ty} {b b' : Bindings}
    (hps : List.Forall₂ (fun p p' => ∀ {t t' : Ty} {b b' : Bindings}, t.Same t' → b.Same b' →
      Option.Rel Bindings.Same (unify b p t) (unify b' p' t')) ps ps')
    (hts : List.Forall₂ Same ts ts') (hb : b.Same b') :
    Option.Rel Bindings.Same (unifyAll b ps ts) (unifyAll b' ps' ts') := by
  induction hps generalizing ts ts' b b' with
  | nil =>
    cases hts with
    | nil => exact .some hb
    | cons _ _ => exact .none
  | @cons p p' ps ps' hp _ ih =>
    cases hts with
    | nil => exact .none
    | @cons t t' ts ts' ht hts =>
      have hhead := hp ht hb
      simp only [unifyAll]
      generalize unify b p t = x at hhead ⊢
      generalize unify b' p' t' = y at hhead ⊢
      cases hhead with
      | none => exact .none
      | some hb => exact ih hts hb

theorem unify_congr {p p' t t' : Ty} {b b' : Bindings} (hp : p.Same p') (ht : t.Same t')
    (hb : b.Same b') : Option.Rel Bindings.Same (unify b p t) (unify b' p' t') := by
  -- By induction on the two spellings of the pattern; the types have to follow it or both fail.
  revert t t' b b'
  refine indBeq (motive := fun p p' => ∀ {t t' : Ty} {b b' : Bindings}, t.Same t' → b.Same b' →
    Option.Rel Bindings.Same (unify b p t) (unify b' p' t')) ?_ ?_ ?_ p p' hp
  · intro n ps ps' hps t t' b b' ht hb
    obtain ⟨m, as, bs, rfl, rfl, hargs⟩ | ⟨_, _, rfl, rfl, -⟩ | ⟨_, _, rfl, rfl, -⟩ :=
      same_cases ht
    · simp only [unify]
      split
      · exact unifyAll_congr hps hargs hb
      · exact .none
    · exact .none
    · exact .none
  · intro a a' ha t t' b b' ht hb
    obtain ⟨_, _, _, rfl, rfl, -⟩ | ⟨_, _, rfl, rfl, hinner⟩ | ⟨_, _, rfl, rfl, -⟩ :=
      same_cases ht
    · exact .none
    · exact ha hinner hb
    · exact .none
  · intro p q hpq t t' b b' ht hb
    have hfound := hb.find? hpq
    simp only [unify]
    generalize b.find? p = x at hfound ⊢
    generalize b'.find? q = y at hfound ⊢
    cases hfound with
    | none => exact .some (hb.insert hpq ht)
    | @some bound bound' hbound =>
      have hbeq : (bound == t) = (bound' == t') :=
        (BEq.congr_left hbound).trans (BEq.congr_right ht)
      simp only [hbeq]
      split
      · exact .some hb
      · exact .none

end Ty

theorem TypeSystem.unifyAssignable_congr (ts : TypeSystem) {p p' t t' : Ty} {b b' : Bindings}
    (hp : p.Same p') (ht : t.Same t') (hb : b.Same b') :
    Option.Rel Bindings.Same (ts.unifyAssignable b p t) (ts.unifyAssignable b' p' t') := by
  simp only [unifyAssignable, Ty.isOpen_congr hp, Ty.isParam_congr hp,
    ts.isAssignable_congr hp ht]
  split
  · split
    · exact Ty.unify_congr hp ht hb
    · exact rel_findSome? (ts.supertypes_congr ht) fun _ _ hu => Ty.unify_congr hp hu hb
  · split
    · exact .some hb
    · exact .none

end Introspect

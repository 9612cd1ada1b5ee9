import Introspect.Proofs.Ty.Substitution
import Introspect.Unify

/-!
Unification against a substitution that solves it. Where a substitution makes the pattern equal to
the concrete type, unification succeeds and binds nothing but what the substitution gives. Up to a
conversion the same holds as long as the concrete type converts to one type for each head.
-/

namespace Introspect

/-- A substitution that is blind to the names of parameters, as their equality is. -/
def NameBlind (σ : TyParam → Option Ty) : Prop := ∀ p q : TyParam, p == q → σ p = σ q

theorem NameBlind.rel {σ : TyParam → Option Ty} (hσ : NameBlind σ) (p q : TyParam) (hpq : p == q) :
    Option.Rel Ty.Same (σ p) (σ q) := by
  rw [hσ p q hpq]
  cases σ q with
  | none => exact .none
  | some t => exact .some BEq.rfl

namespace Bindings

/-- Whether every bound parameter has the type that the substitution gives it. -/
def Agree (b : Bindings) (σ : TyParam → Option Ty) : Prop :=
  ∀ q t, b.find? q = some t → (Ty.param q).subst σ == t

theorem agree_self (b : Bindings) : b.Agree b.find? := fun q t h => by
  rw [Ty.subst, h]
  exact BEq.rfl

theorem agree_empty (σ : TyParam → Option Ty) : empty.Agree σ := fun _ _ h => (nomatch h)

/-- Whether all that is bound by one is bound by the other, to the same type. -/
instance : HasSubset Bindings := ⟨fun b b' => ∀ q t, b.find? q = some t → b'.find? q = some t⟩

theorem subset_refl (b : Bindings) : b ⊆ b := fun _ _ h => h

theorem subset_trans {b b₁ b' : Bindings} (h : b ⊆ b₁) (h' : b₁ ⊆ b') : b ⊆ b' :=
  fun q t hq => h' q t (h q t hq)

theorem Agree.of_subset {b b' : Bindings} {σ : TyParam → Option Ty} (hb : b'.Agree σ)
    (h : b ⊆ b') : b.Agree σ := fun q t hq => hb q t (h q t hq)

theorem Agree.insert {b : Bindings} {σ : TyParam → Option Ty} (hσ : NameBlind σ) (hb : b.Agree σ)
    {p : TyParam} {t : Ty} (h : (Ty.param p).subst σ == t) : (b.insert p t).Agree σ := by
  intro q u hq
  rcases find?_insert_eq_some.mp hq with ⟨hpq, rfl⟩ | ⟨-, hq⟩
  · have hsame : Ty.param q == Ty.param p := BEq.symm (a := p) hpq
    exact BEq.trans (Ty.subst_congr_same hσ.rel hsame) h
  · exact hb q u hq

/-- Whether bindings are kept and just the given parameters bound besides. -/
structure Binds (b : Bindings) (ps : List TyParam) (b' : Bindings) : Prop where
  kept : b ⊆ b'
  domain : ∀ q, (b'.find? q).isSome = true ↔
    (b.find? q).isSome = true ∨ ps.any (· == q) = true

namespace Binds

variable {b b₁ b' : Bindings} {p q : TyParam} {ps qs : List TyParam}

theorem nil (b : Bindings) : b.Binds [] b := ⟨subset_refl b, fun q => by simp⟩

theorem of_bound {t : Ty} (hp : b.find? p = some t) : b.Binds [p] b := by
  refine ⟨subset_refl b, fun q => ⟨Or.inl, ?_⟩⟩
  rintro (hq | hpq)
  · exact hq
  · have hfind : b.find? p = b.find? q := Assoc.find?_congr (by simpa using hpq) b.entries
    rw [← hfind, hp]
    rfl

theorem insert (hp : b.find? p = none) (t : Ty) : b.Binds [p] (b.insert p t) := by
  have hne : ∀ {q u}, b.find? q = some u → ¬(p == q) = true := fun hq hpq => by
    have hfind : b.find? p = b.find? _ := Assoc.find?_congr hpq b.entries
    rw [hfind, hq] at hp
    cases hp
  refine ⟨fun q u hq => ?_, fun q => ?_⟩
  · rw [find?_insert, if_neg (hne hq)]
    exact hq
  · rw [find?_insert]
    by_cases hpq : (p == q) = true
    · simp [hpq]
    · simp [hpq]

theorem append (h : b.Binds ps b₁) (h' : b₁.Binds qs b') : b.Binds (ps ++ qs) b' := by
  refine ⟨subset_trans h.kept h'.kept, fun q => ?_⟩
  rw [h'.domain, h.domain, List.any_append, Bool.or_eq_true, or_assoc]

theorem isSome_of_mem (h : b.Binds ps b') (hp : p ∈ ps) : (b'.find? p).isSome = true :=
  (h.domain p).mpr (.inr (List.any_eq_true.mpr ⟨p, hp, BEq.rfl⟩))

end Binds

end Bindings

namespace Ty

mutual

/-- A pattern that a substitution makes equal to the concrete type unifies with it, and what gets
bound is what the substitution gives. -/
theorem unify_of_subst_beq {σ : TyParam → Option Ty} (hσ : NameBlind σ) :
    (p t : Ty) → {b : Bindings} → b.Agree σ → p.subst σ == t →
      ∃ b', unify b p t = some b' ∧ b'.Agree σ
  | .param p, t, b, hb, h => by
    -- What is bound already is what the substitution gives, which is the concrete type.
    cases hp : b.find? p with
    | some bound =>
      have hbound : bound == t := BEq.trans (BEq.symm (hb p bound hp)) h
      exact ⟨b, by simp only [unify, hp, hbound, if_true], hb⟩
    | none => exact ⟨b.insert p t, by simp only [unify, hp], hb.insert hσ h⟩
  | .array p, .array t, _, hb, h => unify_of_subst_beq hσ p t hb h
  | .named n ps, .named m ts, b, hb, h => by
    rw [subst_named, beq_named, Bool.and_eq_true] at h
    obtain ⟨b', hu, hb'⟩ := unifyAll_of_subst_beq hσ ps ts hb h.2
    exact ⟨b', by simp only [unify, h.1, if_true, hu], hb'⟩
  | .array _, .named .., _, _, h | .array _, .param _, _, _, h => (nomatch h)
  | .named .., .array _, _, _, h | .named .., .param _, _, _, h => (nomatch h)

theorem unifyAll_of_subst_beq {σ : TyParam → Option Ty} (hσ : NameBlind σ) :
    (ps ts : List Ty) → {b : Bindings} → b.Agree σ → ps.map (subst σ) == ts →
      ∃ b', unifyAll b ps ts = some b' ∧ b'.Agree σ
  | [], [], b, hb, _ => ⟨b, rfl, hb⟩
  | p :: ps, t :: ts, b, hb, h => by
    rw [List.map_cons, List.cons_beq_cons, Bool.and_eq_true] at h
    obtain ⟨b₁, hu₁, hb₁⟩ := unify_of_subst_beq hσ p t hb h.1
    obtain ⟨b₂, hu₂, hb₂⟩ := unifyAll_of_subst_beq hσ ps ts hb₁ h.2
    exact ⟨b₂, by simp only [unifyAll, hu₁, hu₂], hb₂⟩
  | [], _ :: _, _, _, h | _ :: _, [], _, _, h => (nomatch h)

end

mutual

/-- Unification binds the parameters of the pattern and leaves all others alone. -/
theorem binds_of_unify : (p t : Ty) → {b b' : Bindings} →
    unify b p t = some b' → b.Binds p.occurrences b'
  | .param p, t, b, b', h => by
    simp only [unify] at h
    split at h
    next bound hp =>
      split at h
      next => cases h; exact Bindings.Binds.of_bound hp
      next => cases h
    next hp =>
      cases h
      exact Bindings.Binds.insert hp t
  | .array p, .array t, _, _, h => binds_of_unify p t h
  | .named n ps, .named m ts, _, _, h => by
    simp only [unify] at h
    split at h
    · exact binds_of_unifyAll ps ts h
    · cases h
  | .array _, .named .., _, _, h | .array _, .param _, _, _, h => (nomatch h)
  | .named .., .array _, _, _, h | .named .., .param _, _, _, h => (nomatch h)

theorem binds_of_unifyAll : (ps ts : List Ty) → {b b' : Bindings} →
    unifyAll b ps ts = some b' → b.Binds (occurrencesAll ps) b'
  | [], [], _, _, h => by
    cases h
    exact Bindings.Binds.nil _
  | p :: ps, t :: ts, b, _, h => by
    simp only [unifyAll] at h
    cases hu : unify b p t with
    | none => simp only [hu] at h; cases h
    | some b₁ =>
      simp only [hu] at h
      exact (binds_of_unify p t hu).append (binds_of_unifyAll ps ts h)
  | [], _ :: _, _, _, h | _ :: _, [], _, _, h => (nomatch h)

end

mutual

/-- A substitution that has what unification binds makes the pattern equal to the concrete type. -/
theorem subst_beq_of_unify {σ : TyParam → Option Ty} : (p t : Ty) → {b b' : Bindings} →
    unify b p t = some b' → b'.Agree σ → p.subst σ == t
  | .param p, t, b, b', h, hb' => by
    simp only [unify] at h
    split at h
    next bound hp =>
      split at h
      next hbound =>
        cases h
        exact BEq.trans (hb' p bound hp) hbound
      next => cases h
    next =>
      cases h
      apply hb' p t
      rw [Bindings.find?_insert, if_pos BEq.rfl]
  | .array p, .array t, _, _, h, hb' => subst_beq_of_unify p t h hb'
  | .named n ps, .named m ts, _, _, h, hb' => by
    simp only [unify] at h
    split at h
    next hn =>
      rw [subst_named, beq_named, Bool.and_eq_true]
      exact ⟨hn, subst_beq_of_unifyAll ps ts h hb'⟩
    next => cases h
  | .array _, .named .., _, _, h, _ | .array _, .param _, _, _, h, _ => (nomatch h)
  | .named .., .array _, _, _, h, _ | .named .., .param _, _, _, h, _ => (nomatch h)

theorem subst_beq_of_unifyAll {σ : TyParam → Option Ty} : (ps ts : List Ty) →
    {b b' : Bindings} → unifyAll b ps ts = some b' → b'.Agree σ → ps.map (subst σ) == ts
  | [], [], _, _, _, _ => rfl
  | p :: ps, t :: ts, b, b', h, hb' => by
    simp only [unifyAll] at h
    cases hu : unify b p t with
    | none => simp only [hu] at h; cases h
    | some b₁ =>
      simp only [hu] at h
      have hb₁ : b₁.Agree σ := hb'.of_subset (binds_of_unifyAll ps ts h).kept
      rw [List.map_cons, List.cons_beq_cons, Bool.and_eq_true]
      exact ⟨subst_beq_of_unify p t hu hb₁, subst_beq_of_unifyAll ps ts h hb'⟩
  | _ :: _, [], _, _, h, _ | [], _ :: _, _, _, h, _ => (nomatch h)

end

theorem sameHead_of_unify {p t : Ty} (hp : p.isParam = false) {b b' : Bindings}
    (h : unify b p t = some b') : p.sameHead t = true := by
  cases p with
  | named n ps =>
    cases t with
    | named m ts =>
      simp only [unify] at h
      split at h
      next hn => exact hn
      next => cases h
    | _ => cases h
  | array p =>
    cases t with
    | array t => rfl
    | _ => cases h
  | param p => cases hp

end Ty

namespace TypeSystem

variable {ts : TypeSystem}

/-! ### Supertypes -/

theorem exists_append_of_closure? {fuel : Nat} {queue seen found : List Ty}
    (h : ts.closure? fuel queue seen = some found) : ∃ later, found = seen ++ later := by
  refine ts.closure?_induction (motive := fun _ seen' => ∃ later, seen' = seen ++ later)
    (fun _ _ _ _ hseen => hseen) (fun t _ _ _ hseen => ?_) h ⟨[], (List.append_nil seen).symm⟩
  obtain ⟨later, rfl⟩ := hseen
  exact ⟨later ++ [t], List.append_assoc seen later [t]⟩

/-- The walk up from a type takes up that type first. -/
theorem head?_of_closure? {fuel : Nat} {t : Ty} {found : List Ty}
    (h : ts.closure? fuel [t] [] = some found) : found.head? = some t := by
  cases fuel with
  | zero => cases h
  | succ fuel =>
    have hstep : ts.closure? fuel (ts.directSupertypes t) [t] = some found := h
    obtain ⟨later, rfl⟩ := exists_append_of_closure? hstep
    rfl

theorem self_mem_supertypes (ts : TypeSystem) (t : Ty) : t ∈ ts.supertypes t := by
  unfold supertypes supertypes?
  cases h : ts.closure? ts.limit [t] [] with
  | none => exact List.mem_singleton_self t
  | some found =>
    have ht : t ∈ found := List.mem_of_head? (head?_of_closure? h)
    simp only [Option.map_some, Option.getD_some]
    split
    · exact ht
    · exact List.mem_append_left _ ht

/-- What a type converts to is among its supertypes, unless it is `object`, which all but `void`
convert to. -/
theorem exists_supertype {target source : Ty} (h : ts.isAssignable target source = true)
    (ho : target.isObject = false) : ∃ u ∈ ts.supertypes source, target == u := by
  simp only [isAssignable, ho, Bool.false_and, Bool.or_false, Bool.or_eq_true] at h
  rcases h with h | h
  · exact ⟨source, ts.self_mem_supertypes source, h⟩
  · exact List.contains_iff_exists_mem_beq.mp h

/-- Whether a type converts to one type at most for each definition, and to one array. -/
def HeadsUnique (ts : TypeSystem) (t : Ty) : Prop :=
  ∀ u ∈ ts.supertypes t, ∀ v ∈ ts.supertypes t, u.sameHead v = true → u == v

/-! ### Unification up to a conversion -/

theorem unifyAssignable_eq_findSome? {pattern : Ty} (hopen : pattern.isOpen = true)
    (hparam : pattern.isParam = false) (b : Bindings) (t : Ty) :
    ts.unifyAssignable b pattern t = (ts.supertypes t).findSome? (Ty.unify b pattern) := by
  simp only [unifyAssignable, hopen, hparam, if_true, Bool.false_eq_true, if_false]

/-- What a pattern of some shape binds makes it one of the supertypes of the concrete type. -/
theorem isAssignable_of_unifyAssignable {pattern t : Ty} (hopen : pattern.isOpen = true)
    (hparam : pattern.isParam = false) {b b' : Bindings}
    (h : ts.unifyAssignable b pattern t = some b') :
    (∀ q ∈ pattern.occurrences, (b'.find? q).isSome = true) ∧
      ts.isAssignable (pattern.apply b') t = true := by
  rw [unifyAssignable_eq_findSome? hopen hparam] at h
  obtain ⟨u, hu, hb'⟩ := List.exists_of_findSome?_eq_some h
  refine ⟨fun q hq => (Ty.binds_of_unify pattern u hb').isSome_of_mem hq, ?_⟩
  have hbeq : pattern.apply b' == u := Ty.subst_beq_of_unify pattern u hb' b'.agree_self
  have hmem := List.contains_iff_exists_mem_beq.mpr ⟨u, hu, hbeq⟩
  rw [isAssignable, hmem, Bool.or_true]

/-- If a type converts to what a substitution makes of an open pattern then the pattern unifies
with one of its supertypes. It binds what the substitution gives if no other supertype has the
pattern's head. -/
theorem unifyAssignable_of_isAssignable {σ : TyParam → Option Ty} (hσ : NameBlind σ)
    {b : Bindings} (hb : b.Agree σ) {pattern t : Ty} (hopen : pattern.isOpen = true)
    (hparam : pattern.isParam = false) (h : ts.isAssignable (pattern.subst σ) t = true) :
    ∃ b', ts.unifyAssignable b pattern t = some b' ∧
      (∀ q ∈ pattern.occurrences, (b'.find? q).isSome = true) ∧
      (ts.HeadsUnique t → b'.Agree σ) := by
  have hobject : (pattern.subst σ).isObject = false := by
    cases pattern with
    | named n as =>
      cases as with
      | nil => cases hopen
      | cons a as => rfl
    | array a => rfl
    | param p => cases hparam
  obtain ⟨u, hu, hbeq⟩ := exists_supertype h hobject
  obtain ⟨b₁, hb₁, -⟩ := Ty.unify_of_subst_beq hσ pattern u hb hbeq
  rw [unifyAssignable_eq_findSome? hopen hparam]
  cases hfound : (ts.supertypes t).findSome? (Ty.unify b pattern) with
  | none =>
    rw [List.findSome?_eq_none_iff.mp hfound u hu] at hb₁
    cases hb₁
  | some b' =>
    obtain ⟨v, hv, hb'⟩ := List.exists_of_findSome?_eq_some hfound
    refine ⟨b', rfl, fun q hq => (Ty.binds_of_unify pattern v hb').isSome_of_mem hq, ?_⟩
    intro hunique
    -- The first supertype that unifies has the pattern's head, so it is the one that is known to.
    have huv : u.sameHead v = true := by
      refine Ty.sameHead_of_common (t := pattern) ?_ (Ty.sameHead_of_unify hparam hb')
      rw [← Ty.sameHead_subst (f := σ) hparam]
      exact Ty.sameHead_of_beq (Ty.isParam_subst hparam) hbeq
    obtain ⟨b₂, hb₂, hagree⟩ := Ty.unify_of_subst_beq hσ pattern v hb
      (BEq.trans hbeq (hunique u hu v hv huv))
    rw [hb'] at hb₂
    cases hb₂
    exact hagree

end TypeSystem

end Introspect

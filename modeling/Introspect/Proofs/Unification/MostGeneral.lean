import Introspect.Proofs.Unification
import Introspect.Registry

/-!
What unification decides. It succeeds exactly if some substitution that extends the bindings makes
the pattern equal to the type, and then it binds only what every such substitution has to give. Up
to a conversion it succeeds exactly if some such substitution makes the type convert to the pattern,
with one exception: a bare parameter that is bound takes no type but the one it is bound to.
-/

namespace Introspect

namespace Bindings

/-- Whether a substitution gives every bound parameter its type. -/
def ExtendedBy (b : Bindings) (σ : TyParam → Option Ty) : Prop :=
  ∀ q t, b.find? q = some t → ∃ u, σ q = some u ∧ u.Same t

theorem ExtendedBy.agree {b : Bindings} {σ : TyParam → Option Ty} (h : b.ExtendedBy σ) :
    b.Agree σ := by
  intro q t hq
  obtain ⟨u, hσ, hu⟩ := h q t hq
  rw [Ty.subst, hσ]
  exact hu

theorem extendedBy_of_subset {b b' : Bindings} (h : b ⊆ b') : b.ExtendedBy b'.find? :=
  fun q t hq => ⟨t, h q t hq, BEq.rfl⟩

theorem nameBlind_find? (b : Bindings) : NameBlind b.find? :=
  fun _ _ hpq => Assoc.find?_congr hpq b.entries

/-- A substitution that extends the bindings and makes the pattern equal to the type. -/
structure Unifier (b : Bindings) (p t : Ty) (σ : TyParam → Option Ty) : Prop where
  nameBlind : NameBlind σ
  extendedBy : b.ExtendedBy σ
  equal : (p.subst σ).Same t

/-- Bindings that make the pattern equal to the type and bind nothing but its parameters besides,
each to what every unifier gives it. -/
structure MostGeneral (b : Bindings) (p t : Ty) (b' : Bindings) : Prop where
  kept : b ⊆ b'
  domain : ∀ q, (b'.find? q).isSome = true ↔ (b.find? q).isSome = true ∨ p.mentions q = true
  equal : (p.apply b').Same t
  forced : ∀ σ, b.Unifier p t σ → ∀ q, p.mentions q = true →
    ∃ u, b'.find? q = some u ∧ ((Ty.param q).subst σ).Same u

end Bindings

namespace Ty

/-! ### Equality -/

theorem mostGeneral_of_unify {b b' : Bindings} {p t : Ty} (h : unify b p t = some b') :
    b.MostGeneral p t b' := by
  have hbinds := binds_of_unify p t h
  refine ⟨hbinds.kept, hbinds.domain, subst_beq_of_unify p t h b'.agree_self, ?_⟩
  intro σ hσ q hq
  obtain ⟨u, hu⟩ := Option.isSome_iff_exists.mp ((hbinds.domain q).mpr (.inr hq))
  -- What a unifier leads unification to bind is the same, as there is one outcome only.
  obtain ⟨b₁, hb₁, hagree⟩ := unify_of_subst_beq hσ.nameBlind p t hσ.extendedBy.agree hσ.equal
  cases h.symm.trans hb₁
  exact ⟨u, hu, hagree q u hu⟩

theorem exists_unifier_of_unify {b b' : Bindings} {p t : Ty} (h : unify b p t = some b') :
    b.Unifier p t b'.find? :=
  have hgeneral := mostGeneral_of_unify h
  ⟨b'.nameBlind_find?, Bindings.extendedBy_of_subset hgeneral.kept, hgeneral.equal⟩

/-- Unification decides whether there is a unifier. It finds the most general bindings if there is
one, and leaves the bindings alone if there is none. -/
theorem unify_decides (b : Bindings) (p t : Ty) :
    ((unify b p t).isSome = true ↔ ∃ σ, b.Unifier p t σ) ∧
      ((unify b p t).isSome = true → b.MostGeneral p t (b.after (unify b p t))) ∧
      ((unify b p t).isSome = false → b.after (unify b p t) = b) := by
  cases h : unify b p t with
  | some b' =>
    refine ⟨⟨fun _ => ⟨_, exists_unifier_of_unify h⟩, fun _ => rfl⟩, ?_, nofun⟩
    exact fun _ => mostGeneral_of_unify h
  | none =>
    refine ⟨⟨nofun, ?_⟩, nofun, fun _ => rfl⟩
    rintro ⟨σ, hσ⟩
    obtain ⟨b', hb', -⟩ := unify_of_subst_beq hσ.nameBlind p t hσ.extendedBy.agree hσ.equal
    cases h.symm.trans hb'

end Ty

/-! ### Conversion -/

namespace Bindings

/-- Whether the pattern is no bare parameter that is bound to another type. -/
def LeavesOpen (b : Bindings) (p t : Ty) : Prop :=
  ∀ q u, p = .param q → b.find? q = some u → u.Same t

end Bindings

namespace TypeSystem

variable {ts : TypeSystem}

theorem isAssignable_of_same {t u : Ty} (h : t.Same u) : ts.isAssignable t u = true := by
  rw [isAssignable, h, Bool.true_or, Bool.true_or]

/-- Up to a conversion too the parameters of the pattern are bound and no others, and then the type
converts to the pattern. -/
theorem convertible_of_unifyAssignable {b b' : Bindings} {p t : Ty}
    (h : ts.unifyAssignable b p t = some b') :
    b.Binds p.occurrences b' ∧ ts.isAssignable (p.apply b') t = true := by
  cases hopen : p.isOpen with
  | false =>
    have hnone : p.occurrences = [] :=
      List.eq_nil_iff_forall_not_mem.mpr (Ty.isOpen_eq_false_iff.mp hopen)
    simp only [unifyAssignable, hopen, Bool.false_eq_true, if_false] at h
    split at h
    next hassignable =>
      cases h
      rw [hnone, Ty.apply, Ty.subst_of_closed hopen]
      exact ⟨Bindings.Binds.nil b, hassignable⟩
    next => cases h
  | true =>
    cases hparam : p.isParam with
    | false =>
      refine ⟨?_, (isAssignable_of_unifyAssignable hopen hparam h).2⟩
      rw [unifyAssignable_eq_findSome? hopen hparam] at h
      obtain ⟨u, -, hu⟩ := List.exists_of_findSome?_eq_some h
      exact Ty.binds_of_unify p u hu
    | true =>
      simp only [unifyAssignable, hopen, hparam, if_true] at h
      exact ⟨Ty.binds_of_unify p t h, isAssignable_of_same (Ty.mostGeneral_of_unify h).equal⟩

theorem leavesOpen_of_unifyAssignable {b b' : Bindings} {p t : Ty}
    (h : ts.unifyAssignable b p t = some b') : b.LeavesOpen p t := by
  rintro q u rfl hq
  have hunify : Ty.unify b (.param q) t = some b' := h
  simp only [Ty.unify, hq] at hunify
  split at hunify
  next hsame => exact hsame
  next => cases hunify

/-- Unification up to a conversion finds a way for the type to convert to the pattern if some
extension of the bindings is one, unless the pattern is a bare parameter bound to another type. -/
theorem exists_unifyAssignable {σ : TyParam → Option Ty} (hσ : NameBlind σ) {b : Bindings}
    (hb : b.Agree σ) {p t : Ty} (hfree : b.LeavesOpen p t)
    (h : ts.isAssignable (p.subst σ) t = true) : ∃ b', ts.unifyAssignable b p t = some b' := by
  cases hopen : p.isOpen with
  | false =>
    rw [Ty.subst_of_closed hopen] at h
    exact ⟨b, by simp only [unifyAssignable, hopen, h, Bool.false_eq_true, if_false, if_true]⟩
  | true =>
    cases p with
    | param q =>
      change ∃ b', Ty.unify b (.param q) t = some b'
      cases hq : b.find? q with
      | none => exact ⟨b.insert q t, by simp only [Ty.unify, hq]⟩
      | some u => exact ⟨b, by simp only [Ty.unify, hq, if_pos (hfree q u rfl hq)]⟩
    | named n ps =>
      obtain ⟨b', hb', -⟩ := unifyAssignable_of_isAssignable hσ hb hopen rfl h
      exact ⟨b', hb'⟩
    | array p =>
      obtain ⟨b', hb', -⟩ := unifyAssignable_of_isAssignable hσ hb hopen rfl h
      exact ⟨b', hb'⟩

/-- Unification up to a conversion decides whether the type converts to the pattern under some
extension of the bindings, except that a bound bare parameter takes its own type only. -/
theorem unifyAssignable_decides (ts : TypeSystem) (b : Bindings) (p t : Ty) :
    ((ts.unifyAssignable b p t).isSome = true ↔
        (∃ σ, NameBlind σ ∧ b.ExtendedBy σ ∧ ts.isAssignable (p.subst σ) t = true) ∧
          b.LeavesOpen p t) ∧
      ((ts.unifyAssignable b p t).isSome = true →
        b ⊆ b.after (ts.unifyAssignable b p t) ∧
          ts.isAssignable (p.apply (b.after (ts.unifyAssignable b p t))) t = true) ∧
      ((ts.unifyAssignable b p t).isSome = false → b.after (ts.unifyAssignable b p t) = b) := by
  cases h : ts.unifyAssignable b p t with
  | some b' =>
    obtain ⟨hbinds, hassignable⟩ := convertible_of_unifyAssignable h
    have hextended := Bindings.extendedBy_of_subset hbinds.kept
    refine ⟨⟨fun _ => ?_, fun _ => rfl⟩, fun _ => ⟨hbinds.kept, hassignable⟩, nofun⟩
    exact ⟨⟨_, b'.nameBlind_find?, hextended, hassignable⟩, leavesOpen_of_unifyAssignable h⟩
  | none =>
    refine ⟨⟨nofun, ?_⟩, nofun, fun _ => rfl⟩
    rintro ⟨⟨σ, hσ, hextended, hassignable⟩, hfree⟩
    obtain ⟨b', hb'⟩ := exists_unifyAssignable hσ hextended.agree hfree hassignable
    cases h.symm.trans hb'

namespace Sample

def types : TypeSystem := Registry.builtin.types 16

def item : TyParam := ⟨"Box", 0, "T"⟩

/-- A parameter bound to a type that lists of integers convert to. -/
def boundItem : Bindings := Bindings.empty.insert item (.enumerable .int)

end Sample

/-- A bare parameter that is bound to a proper supertype does not take the type, although the type
converts to what the parameter is bound to. -/
theorem not_unifyAssignable_boundItem :
    (Ty.list .int).isOpen = false ∧ (Sample.types.supertypes? (.list .int)).isSome = true ∧
      (∀ q u, Sample.boundItem.find? q = some u → u.isOpen = false) ∧
      (∃ σ, NameBlind σ ∧ Sample.boundItem.ExtendedBy σ ∧
        Sample.types.isAssignable ((Ty.param Sample.item).subst σ) (.list .int) = true) ∧
      Sample.types.unifyAssignable Sample.boundItem (.param Sample.item) (.list .int) = none := by
  refine ⟨rfl, rfl, fun q u hq => ?_, ⟨_, Sample.boundItem.nameBlind_find?, ?_, rfl⟩, rfl⟩
  · rcases Bindings.find?_insert_eq_some.mp hq with ⟨-, rfl⟩ | ⟨-, hq⟩
    · rfl
    · cases hq
  · exact Bindings.extendedBy_of_subset (Bindings.subset_refl _)

end TypeSystem

end Introspect

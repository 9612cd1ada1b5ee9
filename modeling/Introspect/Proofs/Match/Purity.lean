import Introspect.Proofs.Generic.Naming
import Introspect.Proofs.Match.NestedDecomposition

/-!
Rules as functions of their targets. A cache finds what was computed for equal targets, whatever
their spelling, so a rule has to answer equal targets alike. The rules that a matcher starts with
do.
-/

namespace Introspect

/-- Whether equal targets make a rule apply to the same candidates, with equal outcomes. -/
structure MatchRule.IsPure (ts : TypeSystem) (rule : MatchRule) : Prop where
  canMatch : ∀ (c : Candidate) (targets targets' : List Ty), (targets == targets') = true →
    rule.canMatch ts c targets = rule.canMatch ts c targets'
  resolve : ∀ (c : Candidate) (targets targets' : List Ty) (t : Ty),
    (targets == targets') = true → rule.resolve ts c targets = .ok t →
    ∃ u, rule.resolve ts c targets' = .ok u ∧ t.Same u

namespace OpenType

variable {ts : TypeSystem}

theorem same_refl (o : OpenType) : o.Same o := by
  refine ⟨rfl, List.forall₂_same.mpr fun arg _ => ?_⟩
  cases arg with
  | none => exact .none
  | some t => exact .some BEq.rfl

theorem length_of_ofTy {t : Ty} {o : OpenType} (h : ofTy ts t = .ok o) :
    o.arguments.length = o.definition.params.length := by
  obtain ⟨d, args, rfl⟩ := exists_initial_of_ofTy h
  exact length_initial d args

end OpenType

namespace MatchRule

variable {ts : TypeSystem}

theorem bindSlots_congr {source : Ty} {pairs pairs' : List (Ty × Ty)}
    (hpairs : List.Forall₂ (fun x y => x.1 = y.1 ∧ x.2.Same y.2) pairs pairs')
    {o o' o₁ : OpenType} (ho : o.Same o') (h : bindSlots ts source o pairs = .ok o₁) :
    ∃ o₁', bindSlots ts source o' pairs' = .ok o₁' ∧ o₁.Same o₁' := by
  induction hpairs generalizing o o' with
  | nil =>
    cases h
    exact ⟨o', rfl, ho⟩
  | @cons x y pairs pairs' hxy _ ih =>
    obtain ⟨slot, target⟩ := x
    obtain ⟨slot', target'⟩ := y
    obtain ⟨rfl, htarget⟩ : slot = slot' ∧ target.Same target' := hxy
    simp only [bindSlots] at h ⊢
    cases hposition : ownPosition? source slot with
    | none =>
      simp only [hposition] at h ⊢
      exact ih ho h
    | some i =>
      simp only [hposition] at h ⊢
      have hknown := ho.arguments.join_getElem? i
      generalize o.arguments[i]?.join = arg at h hknown
      generalize o'.arguments[i]?.join = arg' at hknown ⊢
      cases hknown with
      | none =>
        obtain ⟨o₂, hwith, h⟩ := Except.bind_eq_ok.mp h
        obtain ⟨o₂', hwith', ho₂⟩ := ho.withArgument htarget hwith
        obtain ⟨o₁', h', ho₁⟩ := ih ho₂ h
        exact ⟨o₁', Except.bind_eq_ok.mpr ⟨o₂', hwith', h'⟩, ho₁⟩
      | @some bound bound' hbound =>
        have hbeq : (bound == target) = (bound' == target') :=
          (BEq.congr_left hbound).trans (BEq.congr_right htarget)
        simp only [hbeq] at h ⊢
        split at h
        next hsame =>
          rw [if_pos hsame]
          exact ih ho h
        next => cases h

theorem bindNested_congr {entries entries' : List (TyParam × Ty)}
    (hentries : List.Forall₂ (fun e e' => (e.1 == e'.1) = true ∧ e.2.Same e'.2) entries entries')
    {o o' o₁ : OpenType} (ho : o.Same o') (h : bindNested ts o entries = .ok o₁) :
    ∃ o₁', bindNested ts o' entries' = .ok o₁' ∧ o₁.Same o₁' := by
  induction hentries generalizing o o' with
  | nil =>
    cases h
    exact ⟨o', rfl, ho⟩
  | @cons e e' entries entries' he _ ih =>
    obtain ⟨p, t⟩ := e
    obtain ⟨q, u⟩ := e'
    obtain ⟨hpq, htu⟩ : (p == q) = true ∧ t.Same u := he
    obtain ⟨hindex, howner⟩ := TyParam.beq_iff.mp hpq
    have hopen : o.arguments[p.index]?.any Option.isNone =
        o'.arguments[q.index]?.any Option.isNone := by
      rw [hindex]
      have hknown := rel_getElem? ho.arguments q.index
      generalize o.arguments[q.index]? = x at hknown ⊢
      generalize o'.arguments[q.index]? = y at hknown ⊢
      cases hknown with
      | none => rfl
      | some harg => cases harg <;> rfl
    simp only [bindNested, hopen, howner, ho.definition] at h ⊢
    split at h
    next htaken =>
      obtain ⟨o₂, hwith, h⟩ := Except.bind_eq_ok.mp h
      rw [hindex] at hwith
      obtain ⟨o₂', hwith', ho₂⟩ := ho.withArgument htu hwith
      obtain ⟨o₁', h', ho₁⟩ := ih ho₂ h
      rw [if_pos htaken]
      exact ⟨o₁', Except.bind_eq_ok.mpr ⟨o₂', hwith', h'⟩, ho₁⟩
    next htaken =>
      rw [if_neg htaken]
      exact ih ho h

/-! ### The rules of a new matcher -/

theorem isPure_exact : exact.IsPure ts where
  canMatch c _ _ h := congrArg (!c.isOpen && ·) (BEq.congr_right h)
  resolve _ _ _ t _ ht := ⟨t, ht, BEq.rfl⟩

theorem isPure_genericConstraint : genericConstraint.IsPure ts where
  canMatch c targets targets' h := by
    have hpairs := forall₂_zip_left (Ty.beq_iff_forall₂.mp h) c.constraints
    refine congrArg (c.isOpen && ·) (all_congr hpairs ?_)
    rintro ⟨slot, target⟩ ⟨slot', target'⟩ ⟨hslot, htarget⟩
    obtain rfl : slot = slot' := hslot
    have hbeq : (slot == target) = (slot == target') := BEq.congr_right htarget
    simp only [hbeq]
  resolve c targets targets' t h ht := by
    have hpairs := forall₂_zip_left (Ty.beq_iff_forall₂.mp h) c.constraints
    obtain ⟨o, ho, ht⟩ := Except.bind_eq_ok.mp ht
    obtain ⟨o₁, hbind, hsolve⟩ := Except.bind_eq_ok.mp ht
    obtain ⟨o₁', hbind', hsame⟩ := bindSlots_congr hpairs (OpenType.same_refl o) hbind
    have hlen := OpenType.length_of_ofTy ho
    have hbound := slotsBound_of_bindSlots hlen hbind
    have hlen₁ : o₁.arguments.length = o₁.definition.params.length := by
      rw [hbound.extend.length, hbound.definition, hlen]
    obtain ⟨u, hu, htu⟩ := hsame.solve hlen₁ hsolve
    exact ⟨u, Except.bind_eq_ok.mpr ⟨o, ho, Except.bind_eq_ok.mpr ⟨o₁', hbind', hu⟩⟩, htu⟩

theorem isPure_nestedDecomposition : nestedDecomposition.IsPure ts where
  canMatch c targets targets' h := by
    simp only [nestedDecomposition]
    cases Ty.beq_iff_forall₂.mp h with
    | nil => rfl
    | cons htarget hrest =>
      -- The rule looks at the target only where there is one of it and one slot.
      cases c.constraints with
      | nil => rfl
      | cons slot rest =>
        cases rest with
        | nil =>
          cases hrest with
          | nil => exact congrArg (_ && !·) (Ty.isOpen_congr htarget)
          | cons _ _ => rfl
        | cons _ _ => rfl
  resolve c targets targets' t h ht := by
    obtain ⟨slot, target, b, o, o₁, hslot, rfl, hb, ho, hbind, hsolve⟩ :=
      nestedDecomposition_eq_ok.mp ht
    obtain ⟨target', _, htarget, hnil, rfl⟩ :=
      List.forall₂_cons_left_iff.mp (Ty.beq_iff_forall₂.mp h)
    obtain rfl := List.forall₂_nil_left_iff.mp hnil
    have hunify := ts.unifyAssignable_congr (p := slot) BEq.rfl htarget Bindings.same_empty
    rw [hb] at hunify
    cases hb' : ts.unifyAssignable .empty slot target' with
    | none =>
      rw [hb'] at hunify
      cases hunify
    | some b' =>
      rw [hb'] at hunify
      have hentries : b.Same b' := Option.rel_some_some.mp hunify
      obtain ⟨o₁', hbind', hsame⟩ := bindNested_congr hentries (OpenType.same_refl o) hbind
      have hbound := nestedBound_of_bindNested hbind
      have hlen₁ : o₁.arguments.length = o₁.definition.params.length := by
        rw [hbound.extend.length, hbound.definition, OpenType.length_of_ofTy ho]
      obtain ⟨u, hu, htu⟩ := hsame.solve hlen₁ hsolve
      exact ⟨u, nestedDecomposition_eq_ok.mpr
        ⟨slot, target', b', o, o₁', hslot, rfl, hb', ho, hbind', hu⟩, htu⟩

/-- Every rule that a new matcher has is pure. -/
theorem isPure_of_mem_defaults {rule : MatchRule} (h : rule ∈ defaults) : rule.IsPure ts := by
  simp only [defaults, List.mem_cons, List.not_mem_nil, or_false] at h
  obtain rfl | rfl | rfl := h
  · exact isPure_exact
  · exact isPure_genericConstraint
  · exact isPure_nestedDecomposition

end MatchRule

end Introspect

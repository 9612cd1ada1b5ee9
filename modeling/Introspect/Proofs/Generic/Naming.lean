import Introspect.Proofs.Generic.OpenType
import Introspect.Proofs.Ty.Naming

/-!
Checks and inference do not depend on the names of parameters: equal arguments pass the same checks,
lead to equal inferred ones and close to equal types.
-/

namespace Introspect

/-- Whether the same arguments are known, and equal. -/
abbrev KnownSame (known known' : List (Option Ty)) : Prop :=
  List.Forall₂ (Option.Rel Ty.Same) known known'

namespace KnownSame

variable {known known' : List (Option Ty)}

theorem join_getElem? (h : KnownSame known known') (i : Nat) :
    Option.Rel Ty.Same known[i]?.join known'[i]?.join := by
  have hi := rel_getElem? h i
  generalize known[i]? = x at hi ⊢
  generalize known'[i]? = y at hi ⊢
  cases hi with
  | none => exact .none
  | some h => exact h

theorem set (h : KnownSame known known') (i : Nat) {t u : Ty} (htu : t.Same u) :
    KnownSame (known.set i (some t)) (known'.set i (some u)) := by
  induction h generalizing i with
  | nil => exact .nil
  | cons hxy hrest ih =>
    cases i with
    | zero => exact .cons (.some htu) hrest
    | succ i => exact .cons hxy (ih i)

/-- Arguments all of which are known are all known in every spelling. -/
theorem of_map_some {args : List Ty} (h : KnownSame (args.map some) known') :
    ∃ args', known' = args'.map some ∧ List.Forall₂ Ty.Same args args' := by
  induction args generalizing known' with
  | nil =>
    cases h
    exact ⟨[], rfl, .nil⟩
  | cons a args ih =>
    rw [List.map_cons] at h
    cases h with
    | cons hab hrest =>
      obtain ⟨args', rfl, hargs⟩ := ih hrest
      cases hab with
      | @some _ b hab => exact ⟨b :: args', rfl, .cons hab hargs⟩

theorem map_some {args args' : List Ty} (h : List.Forall₂ Ty.Same args args') :
    KnownSame (args.map some) (args'.map some) := by
  rw [KnownSame, List.forall₂_map_left_iff, List.forall₂_map_right_iff]
  exact h.imp fun _ _ hab => .some hab

theorem bindingsOf (parameters : List Parameter) (h : KnownSame known known') :
    (OpenType.bindingsOf parameters known).Same (OpenType.bindingsOf parameters known') := by
  refine List.rel_foldl (P := Bindings.Same) ?_ Bindings.same_empty (forall₂_zip_left h parameters)
  rintro b b' hb ⟨p, arg⟩ ⟨q, arg'⟩ ⟨hpq, harg⟩
  obtain rfl : p = q := hpq
  cases harg with
  | none => exact hb
  | some htu => exact hb.insert BEq.rfl htu

end KnownSame

namespace Parameter

open Ty (Same)

variable {ts : TypeSystem} {t t' k k' : Ty} {known known' : Bindings}

theorem meets_congr (hk : k.Same k') (ht : t.Same t') : meets ts k t = meets ts k' t' := by
  have hunify := rel_isSome (ts.unifyAssignable_congr hk ht Bindings.same_empty)
  rw [meets, meets, Ty.isOpen_congr hk, hunify, ts.isAssignable_congr hk ht]

theorem metBy_congr {s : SpecialConstraints} (ht : t.Same t') (h : s.MetBy ts t) :
    s.MetBy ts t' where
  referenceType := fun hs => (ts.isReferenceType_congr ht).symm.trans (h.referenceType hs)
  valueType := fun hs => (ts.isValueType_congr ht).symm.trans (h.valueType hs)
  defaultConstructor := fun hs =>
    (ts.hasDefaultConstructor_congr ht).symm.trans (h.defaultConstructor hs)

theorem check_congr {p : Parameter} (ht : t.Same t') (hknown : known.Same known')
    (h : p.check ts t known = .ok ()) : p.check ts t' known' = .ok () := by
  obtain ⟨hspecial, hconstraints⟩ := check_eq_ok.mp h
  refine check_eq_ok.mpr ⟨metBy_congr ht hspecial, fun k hk => ?_⟩
  have happly := (hknown.insert (p := p.param) BEq.rfl ht).apply (t := k) BEq.rfl
  rw [← meets_congr happly ht]
  exact hconstraints k hk

theorem inferFrom?_congr (p dependent : Parameter) (ht : t.Same t')
    (hknown : known.Same known') : Option.Rel Same (p.inferFrom? ts dependent t known)
      (p.inferFrom? ts dependent t' known') := by
  refine rel_findSome? (List.forall₂_same.mpr fun _ _ => rfl) fun k _ hk => ?_
  subst hk
  have happly := ((hknown.erase p.param).insert (p := dependent.param) BEq.rfl ht).apply
    (t := k) BEq.rfl
  refine rel_bind (ts.unifyAssignable_congr happly ht Bindings.same_empty) fun b b' hb => ?_
  refine rel_bind (hb.find? BEq.rfl) fun u u' hu => ?_
  rw [Ty.isOpen_congr hu]
  split
  · exact .none
  · exact .some hu

end Parameter

namespace OpenType

open Ty (Same)

variable (ts : TypeSystem) {known known' : List (Option Ty)}

/-! ### Inference -/

theorem inferOne?_congr (parameters : List Parameter) (h : KnownSame known known')
    (p : Parameter) : Option.Rel Same (inferOne? ts parameters known p)
      (inferOne? ts parameters known' p) := by
  refine rel_findSome? (List.forall₂_same.mpr fun _ _ => rfl) fun j _ hj => ?_
  subst hj
  refine rel_bind (h.join_getElem? j) fun t t' ht => ?_
  cases parameters[j]? with
  | none => exact .none
  | some dependent => exact p.inferFrom?_congr dependent ht (h.bindingsOf parameters)

theorem inferRound_congr (parameters : List Parameter) (h : KnownSame known known') :
    KnownSame (inferRound ts parameters known) (inferRound ts parameters known') := by
  refine List.rel_foldl (R := (· = ·)) (P := KnownSame) ?_ h (List.forall₂_same.mpr fun _ _ => rfl)
  rintro known known' hknown p _ rfl
  have hsome := rel_isSome (hknown.join_getElem? p.position)
  have hfound := inferOne?_congr ts parameters hknown p
  simp only [hsome]
  split
  · exact hknown
  · generalize inferOne? ts parameters known p = x at hfound ⊢
    generalize inferOne? ts parameters known' p = y at hfound ⊢
    cases hfound with
    | none => exact hknown
    | some ht => exact hknown.set p.position ht

/-- Whether two types are on their way with equal arguments. -/
structure Same (o o' : OpenType) : Prop where
  definition : o'.definition = o.definition
  arguments : KnownSame o.arguments o'.arguments

theorem Same.infer {o o' : OpenType} (h : o.Same o') :
    KnownSame (o.infer ts).arguments (o'.infer ts).arguments := by
  simp only [OpenType.infer, parameters, h.definition]
  -- The same number of rounds on both sides, each of which keeps the arguments equal.
  generalize (Parameter.all o.definition).length = n
  induction n with
  | zero => exact h.arguments
  | succ n ih => exact inferRound_congr ts _ ih

/-! ### One more argument, and the end -/

variable {ts}

theorem Same.withArgument {o o' o₁ : OpenType} (h : o.Same o') {i : Nat} {t u : Ty}
    (htu : t.Same u) (hwith : o.withArgument ts i t = .ok o₁) :
    ∃ o₁', o'.withArgument ts i u = .ok o₁' ∧ o₁.Same o₁' := by
  obtain ⟨declared, hi, hcheck, rfl⟩ := withArgument_eq_ok.mp hwith
  have hbindings : o.bindings.Same o'.bindings := by
    rw [bindings, bindings, parameters, parameters, h.definition]
    exact h.arguments.bindingsOf _
  refine ⟨_, withArgument_eq_ok.mpr ⟨declared, h.definition ▸ hi, ?_, rfl⟩, h.definition,
    h.arguments.set i htu⟩
  rw [h.definition]
  exact Parameter.check_congr htu hbindings hcheck

theorem Same.solve {o o' : OpenType} (h : o.Same o')
    (hlen : o.arguments.length = o.definition.params.length) {t : Ty}
    (hsolve : o.solve ts = .ok t) : ∃ u, o'.solve ts = .ok u ∧ t.Same u := by
  have hlen' : o'.arguments.length = o'.definition.params.length := by
    rw [← h.arguments.length_eq, hlen, h.definition]
  obtain ⟨args, hargs, hverify, rfl⟩ := (solve_eq_ok hlen).mp hsolve
  have hinfer := h.infer ts
  rw [hargs] at hinfer
  obtain ⟨args', hargs', hsame⟩ := hinfer.of_map_some
  refine ⟨_, (solve_eq_ok hlen').mpr ⟨args', hargs', verify_eq_ok.mpr ?_, rfl⟩, ?_⟩
  · intro i declared a' hi ha'
    have hrel := rel_getElem? hsame i
    rw [ha'] at hrel
    cases ha : args[i]? with
    | none =>
      rw [ha] at hrel
      cases hrel
    | some a =>
      rw [ha] at hrel
      rw [h.definition] at hi ⊢
      exact Parameter.check_congr (Option.rel_some_some.mp hrel)
        ((KnownSame.map_some hsame).bindingsOf _) (verify_eq_ok.mp hverify i declared a hi ha)
  · rw [h.definition]
    exact Ty.same_named hsame

end OpenType

end Introspect

import Introspect.Ty.Basic
import Mathlib.Data.List.Forall2

/-!
Substitution in types. A substitution matters at the parameters that occur, so a closed type is left
alone by every one, and substituting closed types that a second substitution has too changes nothing
about what the second gives. Closed types have no names to be blind to, so equal ones are the same.
-/

namespace Introspect

theorem TyParam.beq_iff {p q : TyParam} :
    (p == q) = true ↔ p.index = q.index ∧ p.owner = q.owner := by
  change (p.index == q.index && p.owner == q.owner) = true ↔ _
  rw [Bool.and_eq_true, beq_iff_eq, beq_iff_eq]

namespace Ty

mutual

/-- Induction over a type with its arguments. -/
theorem ind {motive : Ty → Prop} (named : ∀ n as, (∀ a ∈ as, motive a) → motive (.named n as))
    (array : ∀ a, motive a → motive (.array a)) (param : ∀ p, motive (.param p)) :
    (t : Ty) → motive t
  | .named n as => named n as (indAll named array param as)
  | .array a => array a (ind named array param a)
  | .param p => param p

theorem indAll {motive : Ty → Prop} (named : ∀ n as, (∀ a ∈ as, motive a) → motive (.named n as))
    (array : ∀ a, motive a → motive (.array a)) (param : ∀ p, motive (.param p)) :
    (as : List Ty) → ∀ a ∈ as, motive a
  | [] => fun a ha => (nomatch ha)
  | b :: bs => by
    have hb := ind named array param b
    have hbs := indAll named array param bs
    intro a ha
    rcases List.mem_cons.mp ha with rfl | ha
    · exact hb
    · exact hbs a ha

end

/-! ### Occurrences -/

theorem occurrences_named (n : String) (as : List Ty) :
    (named n as).occurrences = as.flatMap occurrences := by
  change occurrencesAll as = as.flatMap occurrences
  induction as with
  | nil => rfl
  | cons a as ih => rw [occurrencesAll, ih, List.flatMap_cons]

theorem isOpen_eq_false_iff {t : Ty} : t.isOpen = false ↔ ∀ q, q ∉ t.occurrences := by
  simp [isOpen, List.eq_nil_iff_forall_not_mem]

theorem isOpen_of_mem {t : Ty} {q : TyParam} (hq : q ∈ t.occurrences) : t.isOpen = true := by
  cases ho : t.isOpen with
  | true => rfl
  | false => exact absurd hq (isOpen_eq_false_iff.mp ho q)

theorem isOpen_arg {n : String} {as : List Ty} (h : (named n as).isOpen = false) {a : Ty}
    (ha : a ∈ as) : a.isOpen = false := by
  rw [isOpen_eq_false_iff, occurrences_named] at h
  exact isOpen_eq_false_iff.mpr fun q hq => h q (List.mem_flatMap.mpr ⟨a, ha, hq⟩)

theorem isOpen_named {n : String} {as : List Ty} (h : ∀ a ∈ as, a.isOpen = false) :
    (named n as).isOpen = false := by
  rw [isOpen_eq_false_iff, occurrences_named]
  intro q hq
  obtain ⟨a, ha, hq⟩ := List.mem_flatMap.mp hq
  exact isOpen_eq_false_iff.mp (h a ha) q hq

/-! ### Substitution -/

theorem subst_named (f : TyParam → Option Ty) (n : String) (as : List Ty) :
    (named n as).subst f = named n (as.map (subst f)) := by
  have hall : substAll f as = as.map (subst f) := by
    induction as with
    | nil => rfl
    | cons a as ih => rw [substAll, ih, List.map_cons]
  rw [subst, hall]

theorem subst_congr {f g : TyParam → Option Ty} {t : Ty}
    (h : ∀ q ∈ t.occurrences, (param q).subst f = (param q).subst g) : t.subst f = t.subst g := by
  induction t using ind with
  | named n as ih =>
    rw [subst_named, subst_named]
    refine congrArg (named n) (List.map_congr_left fun a ha => ih a ha fun q hq => h q ?_)
    rw [occurrences_named]
    exact List.mem_flatMap.mpr ⟨a, ha, hq⟩
  | array a ih => exact congrArg array (ih h)
  | param p => exact h p (List.mem_singleton_self p)

theorem subst_none (t : Ty) : t.subst (fun _ => none) = t := by
  induction t using ind with
  | named n as ih =>
    rw [subst_named]
    exact congrArg (named n) ((List.map_congr_left ih).trans (List.map_id' as))
  | array a ih => exact congrArg array ih
  | param p => rfl

/-- A closed type has nothing to replace. -/
theorem subst_of_closed {t : Ty} (h : t.isOpen = false) (f : TyParam → Option Ty) :
    t.subst f = t := by
  have hq := isOpen_eq_false_iff.mp h
  exact (subst_congr fun q hmem => absurd hmem (hq q)).trans (subst_none t)

/-- Two substitutions one after the other are one. -/
theorem subst_subst (f g : TyParam → Option Ty) (t : Ty) :
    (t.subst f).subst g = t.subst fun q => some (((param q).subst f).subst g) := by
  induction t using ind with
  | named n as ih =>
    rw [subst_named, subst_named, subst_named, List.map_map]
    exact congrArg (named n) (List.map_congr_left ih)
  | array a ih => exact congrArg array ih
  | param p => rfl

/-- Types that a second substitution has too may be put in first. -/
theorem subst_subst_of_le {f g : TyParam → Option Ty}
    (hfg : ∀ q u, f q = some u → g q = some u ∧ u.isOpen = false) (t : Ty) :
    (t.subst f).subst g = t.subst g := by
  rw [subst_subst]
  refine subst_congr fun q _ => ?_
  change ((param q).subst f).subst g = (param q).subst g
  cases hf : f q with
  | none => simp only [subst, hf, Option.getD_none]
  | some u =>
    obtain ⟨hg, hu⟩ := hfg q u hf
    simp only [subst, hf, hg, Option.getD_some]
    exact subst_of_closed hu g

/-- What is not replaced stays where it was. -/
theorem mem_occurrences_subst {f : TyParam → Option Ty} {q : TyParam} (hf : f q = none) {t : Ty}
    (hq : q ∈ t.occurrences) : q ∈ (t.subst f).occurrences := by
  induction t using ind with
  | named n as ih =>
    rw [occurrences_named] at hq
    obtain ⟨a, ha, hq⟩ := List.mem_flatMap.mp hq
    rw [subst_named, occurrences_named]
    exact List.mem_flatMap.mpr ⟨a.subst f, List.mem_map_of_mem ha, ih a ha hq⟩
  | array a ih => exact ih hq
  | param p =>
    obtain rfl := List.mem_singleton.mp hq
    simp only [subst, hf, Option.getD_none]
    exact hq

/-- A type is closed once each of its parameters is replaced by a closed one. -/
theorem isOpen_subst {f : TyParam → Option Ty} {t : Ty}
    (h : ∀ q ∈ t.occurrences, ((param q).subst f).isOpen = false) : (t.subst f).isOpen = false := by
  induction t using ind with
  | named n as ih =>
    rw [subst_named, isOpen_eq_false_iff, occurrences_named]
    intro q hq
    obtain ⟨a', ha', hq⟩ := List.mem_flatMap.mp hq
    obtain ⟨a, ha, rfl⟩ := List.mem_map.mp ha'
    refine isOpen_eq_false_iff.mp (ih a ha fun r hr => h r ?_) q hq
    rw [occurrences_named]
    exact List.mem_flatMap.mpr ⟨a, ha, hr⟩
  | array a ih => exact ih h
  | param p => exact h p (List.mem_singleton_self p)

theorem isParam_subst {f : TyParam → Option Ty} {t : Ty} (h : t.isParam = false) :
    (t.subst f).isParam = false := by
  cases t with
  | named n as => rfl
  | array a => rfl
  | param p => cases h

/-! ### Equality -/

theorem sameAll_eq_beq (as bs : List Ty) : sameAll as bs = (as == bs) := by
  induction as generalizing bs with
  | nil => cases bs <;> rfl
  | cons a as ih =>
    cases bs with
    | nil => rfl
    | cons b bs => rw [sameAll, ih]; rfl

theorem beq_named {n m : String} {as bs : List Ty} :
    (named n as == named m bs) = (n == m && as == bs) :=
  congrArg (n == m && ·) (sameAll_eq_beq as bs)

instance : EquivBEq (List Ty) where
  rfl := (sameAll_eq_beq _ _).symm.trans (sameAll_refl _)
  symm := fun h => by
    rw [← sameAll_eq_beq] at h ⊢
    exact (sameAll_comm _ _).trans h
  trans := fun h i => by
    rw [← sameAll_eq_beq] at h i ⊢
    exact sameAll_trans h i

mutual

/-- Induction over two equal types side by side. -/
theorem indBeq {motive : Ty → Ty → Prop}
    (named : ∀ n as bs, List.Forall₂ motive as bs → motive (.named n as) (.named n bs))
    (array : ∀ a b, motive a b → motive (.array a) (.array b))
    (param : ∀ p q : TyParam, p == q → motive (.param p) (.param q)) :
    (t u : Ty) → t == u → motive t u
  | .named n as, .named m bs, h => by
    rw [beq_named, Bool.and_eq_true, beq_iff_eq] at h
    rw [h.1]
    exact named m as bs (indBeqAll named array param as bs h.2)
  | .array a, .array b, h => array a b (indBeq named array param a b h)
  | .param p, .param q, h => param p q h
  | .array _, .named .., h | .array _, .param _, h | .param _, .array _, h => (nomatch h)
  | .named .., .array _, h | .named .., .param _, h | .param _, .named .., h => (nomatch h)

theorem indBeqAll {motive : Ty → Ty → Prop}
    (named : ∀ n as bs, List.Forall₂ motive as bs → motive (.named n as) (.named n bs))
    (array : ∀ a b, motive a b → motive (.array a) (.array b))
    (param : ∀ p q : TyParam, p == q → motive (.param p) (.param q)) :
    (as bs : List Ty) → as == bs → List.Forall₂ motive as bs
  | [], [], _ => .nil
  | a :: as, b :: bs, h => by
    rw [List.cons_beq_cons, Bool.and_eq_true] at h
    exact .cons (indBeq named array param a b h.1) (indBeqAll named array param as bs h.2)
  | [], _ :: _, h | _ :: _, [], h => (nomatch h)

end

/-- Equality of types as a relation. -/
abbrev Same (t u : Ty) : Prop := (t == u) = true

theorem beq_of_forall₂ {as bs : List Ty} (h : List.Forall₂ Same as bs) : as == bs := by
  induction h with
  | nil => rfl
  | cons hab _ ih =>
    rw [List.cons_beq_cons, Bool.and_eq_true]
    exact ⟨hab, ih⟩

theorem same_named {n : String} {as bs : List Ty} (h : List.Forall₂ Same as bs) :
    Same (named n as) (named n bs) := by
  rw [Same, beq_named, BEq.rfl, Bool.true_and]
  exact beq_of_forall₂ h

theorem beq_iff_forall₂ {as bs : List Ty} : (as == bs) = true ↔ List.Forall₂ Same as bs :=
  ⟨indBeqAll (fun _ _ _ => same_named) (fun _ _ h => h) (fun _ _ h => h) as bs, beq_of_forall₂⟩

/-- Equal types stay equal when equal parameters are replaced by equal types. -/
theorem subst_congr_same {f g : TyParam → Option Ty}
    (hfg : ∀ p q : TyParam, p == q → Option.Rel Same (f p) (g q)) {t u : Ty} (h : t.Same u) :
    (t.subst f).Same (u.subst g) := by
  refine indBeq (motive := fun t u => (t.subst f).Same (u.subst g)) ?_ (fun a b hab => hab) ?_ t u h
  · intro n as bs hargs
    rw [subst_named, subst_named]
    apply same_named
    rw [List.forall₂_map_left_iff, List.forall₂_map_right_iff]
    exact hargs
  · intro p q hpq
    have hrel := hfg p q hpq
    simp only [subst]
    cases hf : f p with
    | none =>
      cases hg : g q with
      | none => exact hpq
      | some v => rw [hf, hg] at hrel; cases hrel
    | some u =>
      cases hg : g q with
      | none => rw [hf, hg] at hrel; cases hrel
      | some v =>
        rw [hf, hg] at hrel
        exact Option.rel_some_some.mp hrel

theorem eq_of_beq_of_closed {t u : Ty} (h : t == u) (ht : t.isOpen = false) : t = u := by
  revert ht
  refine indBeq (motive := fun t u => t.isOpen = false → t = u) ?_ ?_ ?_ t u h
  · intro n as bs hargs ht
    have hclosed : ∀ a ∈ as, a.isOpen = false := fun a ha => isOpen_arg ht ha
    clear ht
    refine congrArg (named n) ?_
    induction hargs with
    | nil => rfl
    | cons hab _ ih =>
      rw [hab (hclosed _ List.mem_cons_self), ih fun c hc => hclosed c (List.mem_cons_of_mem _ hc)]
  · exact fun a b hab ha => congrArg array (hab ha)
  · exact fun p q _ hp => (nomatch hp)

/-! ### Heads -/

/-- Whether two types apply the same definition or are both arrays. -/
def sameHead : Ty → Ty → Bool
  | named n _, named m _ => n == m
  | array _, array _ => true
  | _, _ => false

theorem sameHead_subst {f : TyParam → Option Ty} {t u : Ty} (ht : t.isParam = false) :
    (t.subst f).sameHead u = t.sameHead u := by
  cases t with
  | named n as => cases u <;> rfl
  | array a => cases u <;> rfl
  | param p => cases ht

theorem sameHead_of_beq {t u : Ty} (ht : t.isParam = false) (h : t == u) : t.sameHead u = true := by
  cases t with
  | named n as =>
    cases u with
    | named m bs =>
      rw [beq_named, Bool.and_eq_true] at h
      exact h.1
    | _ => cases h
  | array a =>
    cases u with
    | array b => rfl
    | _ => cases h
  | param p => cases ht

theorem sameHead_of_common {t u v : Ty} (hu : t.sameHead u = true) (hv : t.sameHead v = true) :
    u.sameHead v = true := by
  cases t with
  | named n as =>
    cases u with
    | named m bs =>
      cases v with
      | named k cs => exact beq_iff_eq.mpr ((beq_iff_eq.mp hu).symm.trans (beq_iff_eq.mp hv))
      | _ => cases hv
    | _ => cases hu
  | array a =>
    cases u with
    | array b =>
      cases v with
      | array c => rfl
      | _ => cases hv
    | _ => cases hu
  | param p => cases hu

end Ty

end Introspect

import Introspect.Proofs.Generic.Wildcards
import Introspect.Proofs.Match.GenericConstraint

/-!
The order of slots. Each slot is checked when only those before it are bound, so another order makes
other checks. None of them refuses what the last check accepts, which sees all arguments, and two
targets of one parameter disagree in every order. So the order does not matter to the outcome.
-/

namespace Introspect

/-- Whether no known argument mentions a parameter of the definition itself. -/
def Foreign (d : TypeDef) (known : List (Option Ty)) : Prop :=
  ∀ (i : Nat) (t : Ty), known[i]?.join = some t → ∀ q ∈ t.occurrences, q.owner ≠ d.name

namespace OpenType

variable {ts : TypeSystem}

theorem foreign_initial (d : TypeDef) (args : List Ty) :
    Foreign d (initial d args).arguments :=
  fun _ _ ht => (initial_eq_some.mp ht).2.2

theorem foreign_infer {o : OpenType} {d : TypeDef} (h : Foreign d o.arguments) :
    Foreign d (o.infer ts).arguments := by
  intro i t ht q hq
  rcases known_of_infer ht with hknown | hclosed
  · exact h i t hknown q hq
  · exact absurd hq (Ty.isOpen_eq_false_iff.mp hclosed q)

/-- The arguments of a solved type are foreign, too. -/
theorem foreign_arguments_of_solve {o : OpenType} (hforeign : Foreign o.definition o.arguments)
    (hlen : o.arguments.length = o.definition.params.length) {t : Ty} (h : o.solve ts = .ok t) :
    ∃ args, Approximates o.arguments args ∧ Foreign o.definition (args.map some) ∧
      o.verify ts args = .ok () := by
  obtain ⟨args, hargs, hverify, -⟩ := (solve_eq_ok hlen).mp h
  have hextends := extends_infer ts o
  have hinferred : Foreign o.definition (o.infer ts).arguments := foreign_infer hforeign
  rw [hargs] at hextends hinferred
  have hlength := hextends.length
  rw [List.length_map] at hlength
  refine ⟨args, ⟨hlength.symm, fun i t ht => ?_⟩, hinferred, hverify⟩
  exact (Approximates.self args).among i t (hextends.kept i t ht)

/-- Arguments that pass the check of all of them pass every check that knows only some. -/
theorem check_of_verify {o : OpenType} {args : List Ty}
    (hlen : args.length = o.definition.params.length)
    (hforeign : Foreign o.definition (args.map some)) (hverify : o.verify ts args = .ok ())
    {known : List (Option Ty)} (hk : Approximates known args) {i : Nat} {declared : GenericParam}
    {a : Ty} (hi : o.definition.params[i]? = some declared) (ha : args[i]? = some a) :
    (Parameter.ofDeclared o.definition declared i).check ts a
      (bindingsOf (Parameter.all o.definition) known) = .ok () := by
  have hcheck := verify_eq_ok.mp hverify i declared a hi ha
  refine Parameter.check_of_subset ?_ ?_ hcheck
  · intro q u hq
    rw [find?_bindingsOf_map_some hlen]
    exact find?_bindingsOf_le hk hq
  · -- Only own parameters are bound, and what they are bound to mentions none of them.
    intro q u hq r hr
    rw [TypeDef.find?_insert_bindingsOf hlen ha] at hq ⊢
    obtain ⟨-, hu⟩ := TypeDef.assignment_eq_some.mp hq
    have howner : r.owner ≠ o.definition.name := by
      apply hforeign q.index u _ r hr
      rw [List.getElem?_map, hu]
      rfl
    exact if_neg fun he => howner (eq_of_beq he)

end OpenType

namespace MatchRule

variable {ts : TypeSystem} {source : Ty} {pairs pairs' : List (Ty × Ty)} {o o₁ o₂ : OpenType}

/-! ### Slots -/

/-- An argument that is known after the slots are bound was known before or is the target of one. -/
theorem known_of_bindSlots (h : bindSlots ts source o pairs = .ok o₁) {i : Nat} {t : Ty}
    (ht : o₁.arguments[i]?.join = some t) : o.arguments[i]?.join = some t ∨
      ∃ x ∈ pairs, ownPosition? source x.1 = some i ∧ x.2 = t := by
  induction pairs generalizing o with
  | nil =>
    cases h
    exact Or.inl ht
  | cons x pairs ih =>
    have hlater : (∃ y ∈ pairs, ownPosition? source y.1 = some i ∧ y.2 = t) →
        ∃ y ∈ x :: pairs, ownPosition? source y.1 = some i ∧ y.2 = t := by
      rintro ⟨y, hy, hposition, hyt⟩
      exact ⟨y, List.mem_cons_of_mem x hy, hposition, hyt⟩
    obtain ⟨slot, target⟩ := x
    rcases cases_of_bindSlots h with ⟨-, h⟩ |
      ⟨j, hposition, ⟨-, -, -, h⟩ | ⟨-, o', hwith, h⟩⟩
    · exact (ih h).imp_right hlater
    · exact (ih h).imp_right hlater
    · -- Only here an argument changes: the one of the first slot, which becomes its target.
      obtain ⟨declared, -, -, rfl⟩ := OpenType.withArgument_eq_ok.mp hwith
      rcases ih h with hknown | hslot
      · rcases known_of_set hknown with ⟨rfl, rfl⟩ | hknown
        · exact Or.inr ⟨_, List.mem_cons_self, hposition, rfl⟩
        · exact Or.inl hknown
      · exact Or.inr (hlater hslot)

/-- What one order of the slots makes known another one does, too. -/
theorem extends_of_bindSlots (hmem : ∀ x ∈ pairs, x ∈ pairs')
    (hclosed : ∀ x ∈ pairs, x.2.isOpen = false)
    (hlen : o.arguments.length = o.definition.params.length)
    (h₁ : bindSlots ts source o pairs = .ok o₁) (h₂ : bindSlots ts source o pairs' = .ok o₂) :
    Extends o₁.arguments o₂.arguments := by
  have hbound₁ := slotsBound_of_bindSlots hlen h₁
  have hbound₂ := slotsBound_of_bindSlots hlen h₂
  refine ⟨hbound₂.extend.length.trans hbound₁.extend.length.symm, fun i t ht => ?_⟩
  rcases known_of_bindSlots h₁ ht with hknown | ⟨x, hx, hposition, rfl⟩
  · exact hbound₂.extend.kept i t hknown
  · -- The slot is bound in the other order as well, to a closed type that is equal to its target.
    obtain ⟨bound, hjoin, hbeq⟩ := hbound₂.slots x (hmem x hx) i hposition
    rw [hjoin, Ty.eq_of_beq_of_closed (BEq.symm hbeq) (hclosed x hx)]

theorem eq_of_bindSlots (hmem : ∀ x, x ∈ pairs ↔ x ∈ pairs')
    (hclosed : ∀ x ∈ pairs, x.2.isOpen = false)
    (hlen : o.arguments.length = o.definition.params.length)
    (h₁ : bindSlots ts source o pairs = .ok o₁) (h₂ : bindSlots ts source o pairs' = .ok o₂) :
    o₁ = o₂ := by
  have hclosed' : ∀ x ∈ pairs', x.2.isOpen = false := fun x hx => hclosed x ((hmem x).mpr hx)
  have hsame := (extends_of_bindSlots (fun x => (hmem x).mp) hclosed hlen h₁ h₂).antisymm
    (extends_of_bindSlots (fun x => (hmem x).mpr) hclosed' hlen h₂ h₁)
  have hdefinition := (slotsBound_of_bindSlots hlen h₁).definition.trans
    (slotsBound_of_bindSlots hlen h₂).definition.symm
  obtain ⟨d₁, known₁⟩ := o₁
  obtain ⟨d₂, known₂⟩ := o₂
  exact OpenType.mk.injEq d₁ known₁ d₂ known₂ ▸ ⟨hdefinition, hsame⟩

/-- If slots are bound to a type that can be solved, then no order of them meets a refusal. -/
theorem exists_bindSlots (hmem : ∀ x ∈ pairs', x ∈ pairs)
    (hclosed : ∀ x ∈ pairs, x.2.isOpen = false)
    (hlen : o.arguments.length = o.definition.params.length)
    (hforeign : Foreign o.definition o.arguments) (h : bindSlots ts source o pairs = .ok o₁)
    {t : Ty} (hsolve : o₁.solve ts = .ok t) : ∃ o₂, bindSlots ts source o pairs' = .ok o₂ := by
  have hbound := slotsBound_of_bindSlots hlen h
  obtain ⟨d, known₁⟩ := o₁
  obtain rfl : d = o.definition := hbound.definition
  have hlen₁ : known₁.length = o.definition.params.length := hbound.extend.length.trans hlen
  have hforeign₁ : Foreign o.definition known₁ := by
    intro i u hu q hq
    rcases known_of_bindSlots h hu with hknown | ⟨x, hx, -, rfl⟩
    · exact hforeign i u hknown q hq
    · exact absurd hq (Ty.isOpen_eq_false_iff.mp (hclosed x hx) q)
  -- The arguments that solve the type are those that every order of the slots binds.
  obtain ⟨args, hargs, hargsForeign, hverify⟩ :=
    OpenType.foreign_arguments_of_solve (o := ⟨o.definition, known₁⟩) hforeign₁ hlen₁ hsolve
  have harity : args.length = o.definition.params.length := hargs.length.symm.trans hlen₁
  have hstart : Approximates o.arguments args :=
    ⟨hlen.trans harity.symm, fun i u hu => hargs.among i u (hbound.extend.kept i u hu)⟩
  have hslots : ∀ x ∈ pairs', ∀ i, ownPosition? source x.1 = some i → args[i]? = some x.2 := by
    intro x hx i hposition
    obtain ⟨bound, hjoin, hbeq⟩ := hbound.slots x (hmem x hx) i hposition
    rw [Ty.eq_of_beq_of_closed (BEq.symm hbeq) (hclosed x (hmem x hx))]
    exact hargs.among i bound hjoin
  have hchecks : ∀ known, Approximates known args → ∀ (i : Nat) (declared : GenericParam) (a : Ty),
      o.definition.params[i]? = some declared → args[i]? = some a →
      (Parameter.ofDeclared o.definition declared i).check ts a
        (OpenType.bindingsOf (Parameter.all o.definition) known) = .ok () :=
    fun _ hknown _ _ _ hi ha => OpenType.check_of_verify harity hargsForeign hverify hknown hi ha
  obtain ⟨o₂, h₂, -⟩ := bindSlots_of_checks harity hchecks hstart hslots
  exact ⟨o₂, h₂⟩

/-! ### The rule -/

/-- A candidate with a slot for each target. -/
def withSlots (c : Candidate) (pairs : List (Ty × Ty)) : Candidate :=
  { c with constraints := pairs.map Prod.fst }

theorem zip_withSlots (c : Candidate) (pairs : List (Ty × Ty)) :
    (withSlots c pairs).constraints.zip (pairs.map Prod.snd) = pairs :=
  (List.zip_of_prod rfl rfl).symm

theorem canMatch_withSlots (ts : TypeSystem) (c : Candidate) (pairs : List (Ty × Ty)) :
    genericConstraint.canMatch ts (withSlots c pairs) (pairs.map Prod.snd) = (c.isOpen &&
      pairs.all fun x => (ownPosition? c.source x.1).isSome || (!x.1.isOpen && x.1 == x.2)) := by
  simp only [genericConstraint, zip_withSlots]
  rfl

theorem resolve_withSlots_eq_ok {c : Candidate} {t : Ty} :
    genericConstraint.resolve ts (withSlots c pairs) (pairs.map Prod.snd) = .ok t ↔
      ∃ o o₁, OpenType.ofTy ts c.source = .ok o ∧ bindSlots ts c.source o pairs = .ok o₁ ∧
        o₁.solve ts = .ok t := by
  simp only [genericConstraint, zip_withSlots]
  constructor
  · intro h
    obtain ⟨o, ho, h⟩ := Except.bind_eq_ok.mp h
    obtain ⟨o₁, h₁, hsolve⟩ := Except.bind_eq_ok.mp h
    exact ⟨o, o₁, ho, h₁, hsolve⟩
  · rintro ⟨o, o₁, ho, h₁, hsolve⟩
    exact Except.bind_eq_ok.mpr ⟨o, ho, Except.bind_eq_ok.mpr ⟨o₁, h₁, hsolve⟩⟩

theorem resolve_of_mem_iff (hmem : ∀ x, x ∈ pairs ↔ x ∈ pairs')
    (hclosed : ∀ x ∈ pairs, x.2.isOpen = false) {c : Candidate} {t : Ty}
    (h : genericConstraint.resolve ts (withSlots c pairs) (pairs.map Prod.snd) = .ok t) :
    genericConstraint.resolve ts (withSlots c pairs') (pairs'.map Prod.snd) = .ok t := by
  obtain ⟨o, o₁, ho, h₁, hsolve⟩ := resolve_withSlots_eq_ok.mp h
  obtain ⟨d, sargs, rfl⟩ := OpenType.exists_initial_of_ofTy ho
  have hlen := OpenType.length_initial d sargs
  obtain ⟨o₂, h₂⟩ := exists_bindSlots (fun x => (hmem x).mpr) hclosed hlen
    (OpenType.foreign_initial d sargs) h₁ hsolve
  obtain rfl := eq_of_bindSlots hmem hclosed hlen h₁ h₂
  exact resolve_withSlots_eq_ok.mpr ⟨_, o₁, ho, h₂, hsolve⟩

/-- Slots that change places together with their closed targets leave both answers of the rule as
they were: whether it applies, and the type that it finds if it finds one. -/
theorem genericConstraint_perm (ts : TypeSystem) (c : Candidate) (hperm : pairs.Perm pairs')
    (hclosed : ∀ x ∈ pairs, x.2.isOpen = false) :
    genericConstraint.canMatch ts (withSlots c pairs) (pairs.map Prod.snd) =
        genericConstraint.canMatch ts (withSlots c pairs') (pairs'.map Prod.snd) ∧
      ∀ t, genericConstraint.resolve ts (withSlots c pairs) (pairs.map Prod.snd) = .ok t ↔
        genericConstraint.resolve ts (withSlots c pairs') (pairs'.map Prod.snd) = .ok t := by
  have hmem : ∀ x, x ∈ pairs ↔ x ∈ pairs' := fun _ => hperm.mem_iff
  have hclosed' : ∀ x ∈ pairs', x.2.isOpen = false := fun x hx => hclosed x ((hmem x).mpr hx)
  refine ⟨?_, fun t => ⟨resolve_of_mem_iff hmem hclosed,
    resolve_of_mem_iff (fun x => (hmem x).symm) hclosed'⟩⟩
  rw [canMatch_withSlots, canMatch_withSlots, hperm.all_eq]

namespace Sample

/-- Two slots of the class `Table`; the constraint of the first one mentions the second. -/
def slots : List (Ty × Ty) :=
  [(param 0 "Rows", .list (.list .int)), (param 1 "Row", .list .int)]

end Sample

theorem genericConstraint_perm_table :
    Sample.slots.Perm Sample.slots.reverse ∧
      (∀ x ∈ Sample.slots, x.2.isOpen = false) ∧
      genericConstraint.canMatch Sample.types (withSlots Sample.candidate Sample.slots.reverse)
        (Sample.slots.reverse.map Prod.snd) = true ∧
      genericConstraint.resolve Sample.types (withSlots Sample.candidate Sample.slots.reverse)
        (Sample.slots.reverse.map Prod.snd) = .ok (.named "Table" Sample.arguments) := by
  have hperm : Sample.slots.Perm Sample.slots.reverse := (List.reverse_perm _).symm
  have hclosed : ∀ x ∈ Sample.slots, x.2.isOpen = false := by decide
  obtain ⟨hcan, hresolve⟩ :=
    genericConstraint_perm Sample.types Sample.candidate hperm hclosed
  exact ⟨hperm, hclosed, hcan.symm.trans rfl, (hresolve _).mp rfl⟩

end MatchRule

end Introspect

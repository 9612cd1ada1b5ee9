import Introspect.Match.Rule
import Introspect.Proofs.Generic.OpenType
import Introspect.Registry
import Mathlib.Data.List.Forall2

/-!
The rule for candidates whose slots are bare parameters. A type that it finds applies the
candidate's definition to valid arguments that make the source that type and each slot its target.
Where such arguments exist it finds them, as long as each parameter is one that the candidate gives
or one that such a parameter depends on.
-/

namespace Introspect

/-- Valid arguments that make the source the definition applied to them and each slot its target. -/
structure Solution (ts : TypeSystem) (d : TypeDef) (c : Candidate) (targets args : List Ty) : Prop
    extends ValidArguments ts d args where
  source : c.source.instantiate d.name args = .named d.name args
  slots : List.Forall₂ (fun slot target => (slot.instantiate d.name args == target) = true)
    c.constraints targets

/-- Whether the candidate has an argument for a parameter: a closed one in its source, or a slot
that is the bare parameter. -/
def Candidate.Gives (c : Candidate) (d : TypeDef) (i : Nat) : Prop :=
  (∃ a, c.source.args[i]? = some a ∧ a.isOpen = false) ∨
    ∃ p, .param p ∈ c.constraints ∧ p.owner = d.name ∧ p.index = i

namespace MatchRule

variable {ts : TypeSystem} {d : TypeDef}

theorem ownPosition?_eq_some {n : String} {sargs : List Ty} {slot : Ty} {i : Nat} :
    ownPosition? (.named n sargs) slot = some i ↔
      ∃ p, slot = .param p ∧ p.owner = n ∧ p.index = i := by
  cases slot with
  | param p =>
    change (if p.owner == n then some p.index else none) = some i ↔ _
    constructor
    · intro h
      split at h
      next howner =>
        cases h
        exact ⟨p, rfl, eq_of_beq howner, rfl⟩
      next => cases h
    · rintro ⟨q, hq, howner, rfl⟩
      cases hq
      rw [if_pos (beq_iff_eq.mpr howner)]
  | named m as => exact ⟨fun h => (nomatch h), fun ⟨_, h, _⟩ => (nomatch h)⟩
  | array a => exact ⟨fun h => (nomatch h), fun ⟨_, h, _⟩ => (nomatch h)⟩

/-! ### Slots -/

/-- What binding slots to their targets does to a type. -/
structure SlotsBound (source : Ty) (pairs : List (Ty × Ty)) (o o' : OpenType) : Prop where
  definition : o'.definition = o.definition
  extend : Extends o.arguments o'.arguments
  closed : KnownClosed o.arguments → (∀ x ∈ pairs, x.2.isOpen = false) → KnownClosed o'.arguments
  slots : ∀ x ∈ pairs, ∀ i, ownPosition? source x.1 = some i →
    ∃ bound, o'.arguments[i]?.join = some bound ∧ (bound == x.2) = true

theorem SlotsBound.cons_own {source : Ty} {pairs : List (Ty × Ty)} {o o₁ o' : OpenType}
    (h : SlotsBound source pairs o₁ o') {slot target bound : Ty} {i : Nat}
    (hposition : ownPosition? source slot = some i) (hdefinition : o₁.definition = o.definition)
    (hextend : Extends o.arguments o₁.arguments)
    (hclosed : KnownClosed o.arguments → target.isOpen = false → KnownClosed o₁.arguments)
    (hbound : o₁.arguments[i]?.join = some bound) (hbeq : (bound == target) = true) :
    SlotsBound source ((slot, target) :: pairs) o o' where
  definition := h.definition.trans hdefinition
  extend := hextend.trans h.extend
  closed := fun hk hx => h.closed (hclosed hk (hx _ List.mem_cons_self))
    fun x hmem => hx x (List.mem_cons_of_mem _ hmem)
  slots := by
    intro x hmem j hj
    rcases List.mem_cons.mp hmem with rfl | hmem
    · rw [hposition] at hj
      cases hj
      exact ⟨bound, h.extend.kept i bound hbound, hbeq⟩
    · exact h.slots x hmem j hj

/-- What becomes of the first slot: it is no parameter, is bound to its target already or is bound
to it now. -/
theorem cases_of_bindSlots {source slot target : Ty} {pairs : List (Ty × Ty)} {o o' : OpenType}
    (h : bindSlots ts source o ((slot, target) :: pairs) = .ok o') :
    (ownPosition? source slot = none ∧ bindSlots ts source o pairs = .ok o') ∨
      ∃ i, ownPosition? source slot = some i ∧
        ((∃ bound, o.arguments[i]?.join = some bound ∧ (bound == target) = true ∧
            bindSlots ts source o pairs = .ok o') ∨
          (o.arguments[i]?.join = none ∧
            ∃ o₁, o.withArgument ts i target = .ok o₁ ∧ bindSlots ts source o₁ pairs = .ok o')) := by
  simp only [bindSlots] at h
  split at h
  next hposition => exact Or.inl ⟨hposition, h⟩
  next i hposition =>
    refine Or.inr ⟨i, hposition, ?_⟩
    split at h
    next bound hbound =>
      split at h
      next hbeq => exact Or.inl ⟨bound, hbound, hbeq, h⟩
      next => cases h
    next hunknown => exact Or.inr ⟨hunknown, Except.bind_eq_ok.mp h⟩

theorem slotsBound_of_bindSlots {source : Ty} {pairs : List (Ty × Ty)} {o o' : OpenType}
    (hlen : o.arguments.length = o.definition.params.length)
    (h : bindSlots ts source o pairs = .ok o') : SlotsBound source pairs o o' := by
  induction pairs generalizing o with
  | nil =>
    cases h
    exact ⟨rfl, Extends.refl _, fun hk _ => hk, fun x hx => (nomatch hx)⟩
  | cons x pairs ih =>
    obtain ⟨slot, target⟩ := x
    rcases cases_of_bindSlots h with ⟨hposition, h⟩ |
      ⟨i, hposition, ⟨bound, hbound, hbeq, h⟩ | ⟨hunknown, o₁, hwith, h⟩⟩
    · have hrest := ih hlen h
      refine ⟨hrest.definition, hrest.extend,
        fun hk hx => hrest.closed hk fun x hmem => hx x (List.mem_cons_of_mem _ hmem), ?_⟩
      intro x hmem i hi
      rcases List.mem_cons.mp hmem with rfl | hmem
      · rw [hposition] at hi
        cases hi
      · exact hrest.slots x hmem i hi
    · exact (ih hlen h).cons_own hposition rfl (Extends.refl _) (fun hk _ => hk) hbound hbeq
    · obtain ⟨declared, hi, -, rfl⟩ := OpenType.withArgument_eq_ok.mp hwith
      have hlt : i < o.arguments.length := hlen ▸ (List.getElem?_eq_some_iff.mp hi).1
      have hrest : SlotsBound source pairs
          { o with arguments := o.arguments.set i (some target) } o' :=
        ih (List.length_set.trans hlen) h
      exact hrest.cons_own hposition rfl (Extends.set hunknown target) (fun hk ht => hk.set ht)
        (join_getElem?_set hlt target) BEq.rfl

/-- Targets that are the arguments of their slots are bound without a complaint if no check of them
fails, whichever arguments are known at the time. -/
theorem bindSlots_of_checks {source : Ty} {pairs : List (Ty × Ty)} {o : OpenType} {args : List Ty}
    (hlen : args.length = o.definition.params.length)
    (hchecks : ∀ known, Approximates known args → ∀ (i : Nat) (declared : GenericParam) (a : Ty),
      o.definition.params[i]? = some declared → args[i]? = some a →
      (Parameter.ofDeclared o.definition declared i).check ts a
        (OpenType.bindingsOf (Parameter.all o.definition) known) = .ok ())
    (hk : Approximates o.arguments args)
    (hslots : ∀ x ∈ pairs, ∀ i, ownPosition? source x.1 = some i → args[i]? = some x.2) :
    ∃ o', bindSlots ts source o pairs = .ok o' ∧ Approximates o'.arguments args := by
  induction pairs generalizing o with
  | nil => exact ⟨o, rfl, hk⟩
  | cons x pairs ih =>
    obtain ⟨slot, target⟩ := x
    have hrest := fun x (hmem : x ∈ pairs) => hslots x (List.mem_cons_of_mem _ hmem)
    simp only [bindSlots]
    split
    next => exact ih hlen hchecks hk hrest
    next i hposition =>
      have htarget := hslots (slot, target) List.mem_cons_self i hposition
      split
      next bound hbound =>
        have hsame : bound = target :=
          Option.some.inj ((hk.among i bound hbound).symm.trans htarget)
        rw [hsame, if_pos BEq.rfl]
        exact ih hlen hchecks hk hrest
      next =>
        have hlt : i < o.definition.params.length :=
          hlen ▸ (List.getElem?_eq_some_iff.mp htarget).1
        have hi := List.getElem?_eq_getElem hlt
        have hwith : o.withArgument ts i target =
            .ok { o with arguments := o.arguments.set i (some target) } :=
          OpenType.withArgument_eq_ok.mpr ⟨_, hi, hchecks _ hk i _ _ hi htarget, rfl⟩
        obtain ⟨o', ho', hk'⟩ := ih (o := { o with arguments := o.arguments.set i (some target) })
          hlen hchecks (hk.set htarget) hrest
        exact ⟨o', Except.bind_eq_ok.mpr ⟨_, hwith, ho'⟩, hk'⟩

theorem bindSlots_of_validArguments {source : Ty} {pairs : List (Ty × Ty)} {o : OpenType}
    {args : List Ty} (hv : ValidArguments ts o.definition args) (hk : Approximates o.arguments args)
    (hslots : ∀ x ∈ pairs, ∀ i, ownPosition? source x.1 = some i → args[i]? = some x.2) :
    ∃ o', bindSlots ts source o pairs = .ok o' ∧ Approximates o'.arguments args :=
  bindSlots_of_checks hv.arity (fun _ hknown _ _ _ hi ha => hv.check_eq_ok hknown hi ha) hk hslots

/-! ### What the rule finds -/

/-- A slot becomes its target if it is a closed type equal to it or a parameter bound to it. -/
theorem instantiate_slot {n : String} {sargs args : List Ty} {slot target : Ty}
    (hcan : ((ownPosition? (.named n sargs) slot).isSome ||
      (!slot.isOpen && slot == target)) = true)
    (hbound : ∀ i, ownPosition? (.named n sargs) slot = some i →
      ∃ bound, args[i]? = some bound ∧ (bound == target) = true) :
    (slot.instantiate n args == target) = true := by
  cases hposition : ownPosition? (.named n sargs) slot with
  | some i =>
    obtain ⟨bound, hargs, hbeq⟩ := hbound i hposition
    obtain ⟨p, rfl, howner, rfl⟩ := ownPosition?_eq_some.mp hposition
    simp only [Ty.instantiate, Ty.subst, howner, BEq.rfl, if_true, hargs, Option.getD_some]
    exact hbeq
  | none =>
    simp only [hposition, Option.isSome_none, Bool.false_or, Bool.and_eq_true,
      Bool.not_eq_true'] at hcan
    rw [Ty.instantiate, Ty.subst_of_closed hcan.1]
    exact hcan.2

namespace Sample

def param (i : Nat) (name : String) : Ty := .param ⟨"Table", i, name⟩

/-- A class `Table<Rows: IEnumerable<Row>, Row: IEnumerable<Cell>, Cell>`. -/
def table : TypeDef :=
  { TypeDef.new "Table" .classType with
    params := [⟨"Rows", .none, [.enumerable (param 1 "Row")]⟩,
      ⟨"Row", .none, [.enumerable (param 2 "Cell")]⟩, ⟨"Cell", .none, []⟩] }

def types : TypeSystem := (Registry.builtin.register table).types 16

/-- The class itself, with its rows for a slot. -/
def candidate : Candidate := ⟨0, table.selfTy, [param 0 "Rows"], 0⟩

def arguments : List Ty := [.list (.list .int), .list .int, .int]

theorem partialArguments_selfTy : table.PartialArguments table.selfTy.args := by
  intro i a ha
  match i with
  | 0 | 1 | 2 =>
    cases ha
    exact Or.inr ⟨_, rfl, rfl, rfl⟩
  | i + 3 => cases ha

end Sample

/-- A type that the rule finds applies the definition to arguments that solve the candidate. -/
theorem solution_of_genericConstraint (hd : ts.find? d.name = some d) (hown : d.OwnConstraints)
    {c : Candidate} {sargs targets : List Ty} {t : Ty} (hsource : c.source = .named d.name sargs)
    (hpartial : d.PartialArguments sargs) (harity : targets.length = c.arity)
    (htargets : ∀ target ∈ targets, target.isOpen = false)
    (hcan : genericConstraint.canMatch ts c targets = true)
    (h : genericConstraint.resolve ts c targets = .ok t) :
    t.isOpen = false ∧ ∃ args, t = .named d.name args ∧ Solution ts d c targets args := by
  have hopen : c.source.isOpen = true := (Bool.and_eq_true _ _ ▸ hcan : c.isOpen = true ∧ _).1
  have hslots := List.all_eq_true.mp (Bool.and_eq_true _ _ ▸ hcan : c.isOpen = true ∧ _).2
  obtain ⟨o, ho, hrest⟩ := Except.bind_eq_ok.mp h
  obtain ⟨⟨d', known⟩, ho', hsolve⟩ := Except.bind_eq_ok.mp hrest
  rw [hsource] at hopen ho ho' hslots
  obtain ⟨rfl, hempty | hsargs⟩ := OpenType.eq_initial_of_ofTy hd ho
  · rw [hempty] at hopen
    cases hopen
  have hbound := slotsBound_of_bindSlots (OpenType.length_initial d sargs) ho'
  obtain rfl : d' = d := hbound.definition
  have hknown : known.length = d'.params.length :=
    hbound.extend.length.trans (OpenType.length_initial d' sargs)
  obtain ⟨args, rfl, hargs, hclose, hverify⟩ := OpenType.arguments_of_solve hknown hsolve
  have hlen : args.length = d'.params.length := hargs.length.symm.trans hknown
  have hclosed : ∀ a ∈ args, a.isOpen = false := by
    apply hclose
    apply hbound.closed (OpenType.knownClosed_initial hpartial)
    exact fun x hx => htargets x.2 (List.of_mem_zip hx).2
  refine ⟨Ty.isOpen_named hclosed, args, rfl, ?_, ?_, ?_⟩
  · exact TypeDef.validArguments_of_check hown hlen hclosed (OpenType.verify_eq_ok.mp hverify)
  · rw [hsource]
    refine hpartial.instantiate (hsargs.trans hlen.symm) fun i a ha hca => ?_
    have hlt : i < d'.params.length := hsargs ▸ (List.getElem?_eq_some_iff.mp ha).1
    apply hargs.among i a
    apply hbound.extend.kept i a
    exact OpenType.initial_eq_some.mpr
      ⟨hlt, ha, fun q hq => absurd hq (Ty.isOpen_eq_false_iff.mp hca q)⟩
  · rw [List.forall₂_iff_zip]
    refine ⟨harity.symm, fun {slot target} hmem => ?_⟩
    refine instantiate_slot (hslots (slot, target) hmem) fun i hi => ?_
    obtain ⟨bound, hjoin, hbeq⟩ := hbound.slots (slot, target) hmem i hi
    exact ⟨bound, hargs.among i bound hjoin, hbeq⟩

theorem solution_of_genericConstraint_table :
    Solution Sample.types Sample.table Sample.candidate [.list (.list .int)] Sample.arguments := by
  have hown : Sample.table.OwnConstraints := by
    unfold TypeDef.OwnConstraints
    decide
  have harity : [Ty.list (.list .int)].length = Sample.candidate.arity := rfl
  have hresolve : genericConstraint.resolve Sample.types Sample.candidate [.list (.list .int)] =
      .ok (.named "Table" Sample.arguments) := rfl
  obtain ⟨-, args, hargs, hs⟩ := solution_of_genericConstraint (d := Sample.table) rfl hown rfl
    Sample.partialArguments_selfTy harity (by decide) rfl hresolve
  cases hargs
  exact hs

/-! ### What there is to find -/

theorem getElem?_of_instantiate_slot {n : String} {sargs args : List Ty} {slot target : Ty}
    {i : Nat} (htarget : target.isOpen = false)
    (hposition : ownPosition? (.named n sargs) slot = some i)
    (h : (slot.instantiate n args == target) = true) : args[i]? = some target := by
  obtain ⟨p, rfl, howner, rfl⟩ := ownPosition?_eq_some.mp hposition
  simp only [Ty.instantiate, Ty.subst, howner, BEq.rfl, if_true] at h
  have heq := Ty.eq_of_beq_of_closed (BEq.symm h) htarget
  cases hargs : args[p.index]? with
  | none =>
    rw [hargs, Option.getD_none] at heq
    rw [heq] at htarget
    cases htarget
  | some a =>
    rw [hargs, Option.getD_some] at heq
    rw [heq]

/-- What a candidate gives is known once its slots are bound. -/
theorem isSome_of_gives {c : Candidate} {sargs targets : List Ty} {o : OpenType} {i : Nat}
    (hsource : c.source = .named d.name sargs) (hsargs : sargs.length = d.params.length)
    (harity : c.constraints.length = targets.length)
    (hbound : SlotsBound c.source (c.constraints.zip targets) (.initial d sargs) o)
    (hgives : c.Gives d i) : (o.arguments[i]?.join).isSome = true := by
  rcases hgives with ⟨a, ha, hclosed⟩ | ⟨p, hp, howner, rfl⟩
  · rw [hsource] at ha
    have hlt : i < d.params.length := hsargs ▸ (List.getElem?_eq_some_iff.mp ha).1
    have hinitial := OpenType.initial_eq_some.mpr
      ⟨hlt, ha, fun q hq => absurd hq (Ty.isOpen_eq_false_iff.mp hclosed q)⟩
    rw [hbound.extend.kept i a hinitial]
    rfl
  · obtain ⟨k, hk⟩ := List.mem_iff_getElem?.mp hp
    have hlt : k < targets.length := harity ▸ (List.getElem?_eq_some_iff.mp hk).1
    have hpair : (c.constraints.zip targets)[k]? = some (.param p, targets[k]) :=
      List.getElem?_zip_eq_some.mpr ⟨hk, List.getElem?_eq_getElem hlt⟩
    have hmem : (.param p, targets[k]) ∈ c.constraints.zip targets := List.mem_of_getElem? hpair
    have hposition : ownPosition? c.source (.param p) = some p.index := by
      rw [hsource]
      exact ownPosition?_eq_some.mpr ⟨p, rfl, howner, rfl⟩
    obtain ⟨bound, hjoin, -⟩ := hbound.slots _ hmem p.index hposition
    rw [hjoin]
    rfl

/-- Where arguments solve the candidate the rule finds them. -/
theorem genericConstraint_of_solution (hd : ts.find? d.name = some d)
    (hacyclic : ∀ i, ¬Relation.TransGen d.DependsOn i i)
    (hcompound : ∀ declared ∈ d.params, ∀ k ∈ declared.constraints, k.isParam = false)
    {c : Candidate} {sargs targets args : List Ty} (hsource : c.source = .named d.name sargs)
    (htargets : ∀ target ∈ targets, target.isOpen = false)
    (hheads : ∀ a ∈ args, ts.HeadsUnique a)
    (hreach : ∀ j < d.params.length, ∃ i, c.Gives d i ∧ Relation.ReflTransGen d.DependsOn i j)
    (hs : Solution ts d c targets args) :
    genericConstraint.resolve ts c targets = .ok (.named d.name args) := by
  have hv : InferableArguments ts d args := ⟨hs.toValidArguments, hcompound, hheads⟩
  obtain ⟨harity, hslots⟩ := List.forall₂_iff_zip.mp hs.slots
  have hinstance := hs.source
  rw [hsource] at hinstance
  have hsargs : sargs.length = d.params.length := by
    rw [TypeDef.instantiate_eq_subst, Ty.subst_named, Ty.named.injEq] at hinstance
    rw [← hs.arity, ← hinstance.2, List.length_map]
  have hpairs : ∀ x ∈ c.constraints.zip targets, ∀ i,
      ownPosition? c.source x.1 = some i → args[i]? = some x.2 := by
    intro x hx i hi
    rw [hsource] at hi
    exact getElem?_of_instantiate_slot (htargets x.2 (List.of_mem_zip hx).2) hi (hslots hx)
  have hinitial := OpenType.ofTy_eq_ok hd hacyclic hsargs
  have hvalid : ValidArguments ts (OpenType.initial d sargs).definition args := hs.toValidArguments
  obtain ⟨⟨d', known⟩, hbind, hk⟩ := bindSlots_of_validArguments hvalid
    (OpenType.approximates_initial hs.arity hinstance) hpairs
  have hbound := slotsBound_of_bindSlots (OpenType.length_initial d sargs) hbind
  obtain rfl : d' = d := hbound.definition
  have hreaches : OpenType.Reaches d' known := by
    intro j hj
    obtain ⟨i, hgives, hway⟩ := hreach j hj
    exact ⟨i, isSome_of_gives hsource hsargs harity hbound hgives, hway⟩
  have hinfer := OpenType.infer_eq_map_some (o := ⟨d', known⟩) hv hk hreaches
  have hverify : OpenType.verify ts ⟨d', known⟩ args = .ok () :=
    OpenType.verify_eq_ok.mpr fun i declared a hi ha =>
      hs.check_eq_ok (Approximates.self args) hi ha
  have hsolve : OpenType.solve ts ⟨d', known⟩ = .ok (.named d'.name args) :=
    (OpenType.solve_eq_ok (hk.length.trans hs.arity)).mpr ⟨args, hinfer, hverify, rfl⟩
  refine Except.bind_eq_ok.mpr ⟨.initial d' sargs, ?_, Except.bind_eq_ok.mpr ⟨_, hbind, hsolve⟩⟩
  rw [hsource]
  exact hinitial

theorem genericConstraint_table :
    genericConstraint.resolve Sample.types Sample.candidate [.list (.list .int)] =
      .ok (.named "Table" Sample.arguments) := by
  have hdecide : ∀ i < 3, ∀ j < 3,
      Parameter.mentionedBy Sample.table (Sample.table.param j) i = true → i < j := by decide
  have hlt : ∀ i j, Sample.table.DependsOn i j → i < j := fun i j h =>
    hdecide i h.lt_left j h.2.1 (TypeDef.DependsOn.iff_mentionedBy.mp h).2.2
  have hacyclic : ∀ i, ¬Relation.TransGen Sample.table.DependsOn i i := by
    intro i hi
    have hii := Relation.TransGen.mono hlt i i hi
    rw [Relation.transGen_eq_self] at hii
    exact absurd hii (Nat.lt_irrefl i)
  have hmention : ∀ i < 2,
      Parameter.mentionedBy Sample.table (Sample.table.param (i + 1)) i = true := by decide
  have hreach : ∀ j < 3, Relation.ReflTransGen Sample.table.DependsOn 0 j := by
    intro j hj
    induction j with
    | zero => exact .refl
    | succ j ih =>
      exact (ih (by omega)).tail
        (TypeDef.DependsOn.iff_mentionedBy.mpr ⟨by omega, hj, hmention j (by omega)⟩)
  have hs : Solution Sample.types Sample.table Sample.candidate [.list (.list .int)]
      Sample.arguments := by
    refine ⟨⟨rfl, by decide, fun i declared a hi ha => ?_, fun i declared a hi ha => ?_⟩, rfl,
      .cons rfl .nil⟩
    · match i with
      | 0 | 1 | 2 =>
        cases hi
        exact ⟨nofun, nofun, nofun⟩
      | i + 3 => cases hi
    · match i with
      | 0 | 1 | 2 =>
        cases hi
        cases ha
        decide
      | i + 3 => cases hi
  exact genericConstraint_of_solution rfl hacyclic (by decide) rfl (by decide)
    (by unfold TypeSystem.HeadsUnique; decide)
    (fun j hj => ⟨0, Or.inr ⟨_, List.mem_singleton_self _, rfl, rfl⟩, hreach j hj⟩) hs

end MatchRule

end Introspect

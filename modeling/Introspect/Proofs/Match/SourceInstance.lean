import Introspect.Proofs.Match.NestedDecomposition

/-!
How a match relates to the candidate's source. The rules for open candidates keep the closed
arguments of the source and fill in all others, each on its own. The outcome is an instance of a
source whose other arguments are bare parameters exactly if equal arguments came out equal. What is
filled in for an argument with a parameter inside does not follow the shape of that argument.
-/

namespace Introspect

/-! ### Instances -/

/-- Whether equal arguments go to equal arguments. -/
def Uniform (sargs args : List Ty) : Prop :=
  ∀ x ∈ sargs.zip args, ∀ y ∈ sargs.zip args, (x.1 == y.1) = true → (x.2 == y.2) = true

/-- Whether the closed arguments go to themselves. -/
def KeepsClosed (sargs args : List Ty) : Prop :=
  ∀ x ∈ sargs.zip args, x.1.isOpen = false → x.2 = x.1

/-- Whether each argument is closed or a bare parameter. -/
def BareArguments (sargs : List Ty) : Prop := ∀ a ∈ sargs, a.isOpen = false ∨ a.isParam = true

/-- Whether no argument but a closed one stands twice. -/
def DistinctParams (sargs : List Ty) : Prop :=
  sargs.Pairwise fun a b => (a == b) = true → a.isOpen = false

/-- The substitution that reads off what a parameter goes to where it first stands. -/
def readOff (sargs args : List Ty) (q : TyParam) : Option Ty :=
  ((sargs.zip args).find? fun x => x.1 == .param q).map (·.2)

theorem nameBlind_readOff (sargs args : List Ty) : NameBlind (readOff sargs args) := by
  intro p q hpq
  have hsame : ∀ t : Ty, (t == .param p) = (t == .param q) := fun t =>
    BEq.congr_right (show Ty.param p == Ty.param q from hpq)
  simp only [readOff, hsame]

namespace Ty

theorem map_subst_beq_iff {σ : TyParam → Option Ty} {sargs args : List Ty}
    (hlen : args.length = sargs.length) :
    (sargs.map (subst σ) == args) = true ↔
      ∀ x ∈ sargs.zip args, (x.1.subst σ == x.2) = true := by
  induction sargs generalizing args with
  | nil =>
    obtain rfl := List.length_eq_zero_iff.mp hlen
    exact ⟨fun _ x hx => (nomatch hx), fun _ => rfl⟩
  | cons a sargs ih =>
    cases args with
    | nil => cases hlen
    | cons b args =>
      rw [List.map_cons, List.cons_beq_cons, Bool.and_eq_true, List.zip_cons_cons,
        List.forall_mem_cons, ih (Nat.succ.inj hlen)]

/-- What a substitution makes equal to a type, some bindings make equal to it. -/
theorem exists_apply_beq {σ : TyParam → Option Ty} (hσ : NameBlind σ) {p t : Ty}
    (h : (p.subst σ == t) = true) : ∃ b : Bindings, (p.apply b == t) = true := by
  obtain ⟨b, hb, -⟩ := unify_of_subst_beq hσ p t (Bindings.agree_empty σ) h
  exact ⟨b, subst_beq_of_unify p t hb b.agree_self⟩

/-- A type whose arguments are closed or bare parameters has exactly those instances that keep the
closed ones and treat equal ones alike. -/
theorem exists_apply_beq_iff {n : String} {sargs args : List Ty}
    (hlen : args.length = sargs.length) (hkeep : KeepsClosed sargs args)
    (hbare : BareArguments sargs) :
    (∃ b : Bindings, ((named n sargs).apply b == .named n args) = true) ↔ Uniform sargs args := by
  constructor
  · rintro ⟨b, hb⟩ x hx y hy hxy
    rw [apply, subst_named, beq_named, Bool.and_eq_true] at hb
    have heach := (map_subst_beq_iff hlen).mp hb.2
    have hblind : NameBlind b.find? := fun p q hpq => Assoc.find?_congr hpq b.entries
    have hsame := subst_congr_same hblind.rel hxy
    exact BEq.trans (BEq.symm (heach x hx)) (BEq.trans hsame (heach y hy))
  · intro huniform
    -- Equal arguments went to equal ones, so it does not matter from which place they are read.
    refine exists_apply_beq (nameBlind_readOff sargs args) ?_
    rw [subst_named, beq_named, BEq.rfl, Bool.true_and, map_subst_beq_iff hlen]
    intro x hx
    rcases hbare x.1 (List.of_mem_zip hx).1 with hclosed | hparam
    · rw [subst_of_closed hclosed, hkeep x hx hclosed]
      exact BEq.rfl
    · obtain ⟨⟨p⟩ | _ | p, a⟩ := x
      · cases hparam
      · cases hparam
      have hfound : ((sargs.zip args).find? fun x => x.1 == .param p).isSome = true :=
        List.find?_isSome.mpr ⟨_, hx, BEq.rfl⟩
      obtain ⟨y, hy⟩ := Option.isSome_iff_exists.mp hfound
      have hpy := List.find?_some hy
      simp only [subst, readOff, hy, Option.map_some, Option.getD_some]
      exact huniform y (List.mem_of_find?_eq_some hy) _ hx hpy

end Ty

/-- Arguments of which only closed ones stand twice are treated alike if those are kept. -/
theorem uniform_of_distinct {sargs args : List Ty} (hkeep : KeepsClosed sargs args)
    (hdistinct : DistinctParams sargs) : Uniform sargs args := by
  intro x hx y hy hxy
  have hclosed : ∀ {x y : Ty × Ty}, x ∈ sargs.zip args → y ∈ sargs.zip args →
      (x.1 == y.1) = true → x.1.isOpen = false → x.2 = y.2 := by
    intro x y hx hy hxy hopen
    have hsame := Ty.eq_of_beq_of_closed hxy hopen
    rw [hkeep x hx hopen, hkeep y hy (hsame ▸ hopen), hsame]
  obtain ⟨i, hi⟩ := List.mem_iff_getElem?.mp hx
  obtain ⟨j, hj⟩ := List.mem_iff_getElem?.mp hy
  have hsi := (List.getElem?_eq_some_iff.mp (List.getElem?_zip_eq_some.mp hi).1)
  have hsj := (List.getElem?_eq_some_iff.mp (List.getElem?_zip_eq_some.mp hj).1)
  have hpairs := List.pairwise_iff_getElem.mp hdistinct
  rcases Nat.lt_trichotomy i j with hlt | rfl | hgt
  · have hopen := hpairs i j hsi.1 hsj.1 hlt
    rw [hsi.2, hsj.2] at hopen
    rw [hclosed hx hy hxy (hopen hxy)]
    exact BEq.rfl
  · cases hi.symm.trans hj
    exact BEq.rfl
  · have hopen := hpairs j i hsj.1 hsi.1 hgt
    rw [hsi.2, hsj.2] at hopen
    rw [hclosed hy hx (BEq.symm hxy) (hopen (BEq.symm hxy))]
    exact BEq.rfl

namespace MatchRule

variable {ts : TypeSystem} {d : TypeDef}

/-- The rules for open candidates solve the source's definition with more arguments known. -/
theorem exists_solve_of_resolve {rule : MatchRule}
    (hrule : rule = genericConstraint ∨ rule = nestedDecomposition)
    (hd : ts.find? d.name = some d) {c : Candidate} {sargs targets : List Ty} {t : Ty}
    (hsource : c.source = .named d.name sargs) (h : rule.resolve ts c targets = .ok t) :
    (sargs = [] ∨ sargs.length = d.params.length) ∧
      ∃ known, Extends (OpenType.initial d sargs).arguments known ∧
        OpenType.solve ts ⟨d, known⟩ = .ok t := by
  rcases hrule with rfl | rfl
  · obtain ⟨o, ho, h⟩ := Except.bind_eq_ok.mp h
    obtain ⟨⟨d', known⟩, ho', hsolve⟩ := Except.bind_eq_ok.mp h
    rw [hsource] at ho
    obtain ⟨rfl, hsargs⟩ := OpenType.eq_initial_of_ofTy hd ho
    have hbound := slotsBound_of_bindSlots (OpenType.length_initial d sargs) ho'
    obtain rfl : d' = d := hbound.definition
    exact ⟨hsargs, known, hbound.extend, hsolve⟩
  · obtain ⟨slot, target, b, o, ⟨d', known⟩, -, -, -, ho, ho', hsolve⟩ :=
      nestedDecomposition_eq_ok.mp h
    rw [hsource] at ho
    obtain ⟨rfl, hsargs⟩ := OpenType.eq_initial_of_ofTy hd ho
    have hbound := nestedBound_of_bindNested ho'
    obtain rfl : d' = d := hbound.definition
    exact ⟨hsargs, known, hbound.extend, hsolve⟩

namespace Sample

/-- A class `Pair<A, B>` taken the other way round, for its parameters. -/
def swapped : Candidate :=
  let a : Ty := .param (pair.param 0)
  let b : Ty := .param (pair.param 1)
  ⟨0, pairOf b a, [a, b], 0⟩

/-- The same class with one parameter in both places. -/
def doubled : Candidate :=
  let a : Ty := .param (pair.param 0)
  ⟨0, pairOf a a, [a, .param (pair.param 1)], 0⟩

/-- A class `Box<T>`. -/
def box : TypeDef := { TypeDef.new "Box" .classType with params := [⟨"T", .none, []⟩] }

def boxTypes : TypeSystem := (Registry.builtin.register box).types 16

/-- The class applied to lists of its own parameter. -/
def boxOfList : Candidate :=
  let t : Ty := .param (box.param 0)
  ⟨0, .named "Box" [.list t], [t], 0⟩

end Sample

/-- A match applies the source's definition and keeps the closed arguments of the source. If all
others are bare parameters then it is an instance of the source exactly if it treats equal ones
alike, as it does when none stands twice. -/
theorem source_of_resolve {rule : MatchRule}
    (hrule : rule = genericConstraint ∨ rule = nestedDecomposition)
    (hd : ts.find? d.name = some d) {c : Candidate} {sargs targets : List Ty} {t : Ty}
    (hsource : c.source = .named d.name sargs) (hopen : c.isOpen = true)
    (h : rule.resolve ts c targets = .ok t) :
    ∃ args, t = .named d.name args ∧ args.length = sargs.length ∧ KeepsClosed sargs args ∧
      (BareArguments sargs →
        (DistinctParams sargs → ∃ b : Bindings, (c.source.apply b == t) = true) ∧
        ((∃ b : Bindings, (c.source.apply b == t) = true) ↔ Uniform sargs args)) := by
  obtain ⟨hsargs, known, hextend, hsolve⟩ := exists_solve_of_resolve hrule hd hsource h
  rw [Candidate.isOpen, hsource] at hopen
  obtain rfl | hsargs := hsargs
  · cases hopen
  have hknown : known.length = d.params.length :=
    hextend.length.trans (OpenType.length_initial d sargs)
  obtain ⟨args, rfl, hargs, -, -⟩ := OpenType.arguments_of_solve hknown hsolve
  have hlen : args.length = sargs.length := hargs.length.symm.trans (hknown.trans hsargs.symm)
  have hkeep : KeepsClosed sargs args := by
    intro x hx hclosed
    obtain ⟨i, hi⟩ := List.mem_iff_getElem?.mp hx
    obtain ⟨hs, ha⟩ := List.getElem?_zip_eq_some.mp hi
    have hlt : i < d.params.length := hsargs ▸ (List.getElem?_eq_some_iff.mp hs).1
    have hinitial := OpenType.initial_eq_some.mpr
      ⟨hlt, hs, fun q hq => absurd hq (Ty.isOpen_eq_false_iff.mp hclosed q)⟩
    exact Option.some.inj (ha.symm.trans (hargs.among i x.1 (hextend.kept i x.1 hinitial)))
  refine ⟨args, rfl, hlen, hkeep, fun hbare => ?_⟩
  rw [hsource]
  have hiff := Ty.exists_apply_beq_iff (n := d.name) hlen hkeep hbare
  exact ⟨fun hdistinct => hiff.mpr (uniform_of_distinct hkeep hdistinct), hiff⟩

theorem source_of_resolve_swapped : ∃ b : Bindings,
    (Sample.swapped.source.apply b == Sample.pairOf .int .string) = true := by
  have hresolve : genericConstraint.resolve Sample.pairTypes Sample.swapped [.int, .string] =
      .ok (Sample.pairOf .int .string) := rfl
  obtain ⟨args, -, -, -, hbare⟩ :=
    source_of_resolve (d := Sample.pair) (.inl rfl) rfl rfl rfl hresolve
  exact (hbare (by unfold BareArguments; decide)).1 (by unfold DistinctParams; decide)

/-- What is filled in follows neither the shape of an argument nor that a parameter stands twice. -/
theorem not_instance_of_resolve :
    (Sample.boxOfList.isOpen = true ∧
      (∀ q ∈ Sample.boxOfList.source.occurrences, q.owner = "Box") ∧
      genericConstraint.resolve Sample.boxTypes Sample.boxOfList [.int] =
        .ok (.named "Box" [.int]) ∧
      ¬∃ b : Bindings, (Sample.boxOfList.source.apply b == .named "Box" [.int]) = true) ∧
    (Sample.doubled.isOpen = true ∧
      (∀ q ∈ Sample.doubled.source.occurrences, q.owner = "Pair") ∧
      genericConstraint.resolve Sample.pairTypes Sample.doubled [.int, .string] =
        .ok (Sample.pairOf .int .string) ∧
      ¬∃ b : Bindings, (Sample.doubled.source.apply b == Sample.pairOf .int .string) = true) := by
  refine ⟨⟨rfl, by decide, rfl, ?_⟩, rfl, by decide, rfl, ?_⟩
  · rintro ⟨b, hb⟩
    cases hb
  · rintro ⟨b, hb⟩
    -- The one parameter would have to be both types.
    have hboth : ("Pair" == "Pair" && (((Ty.param (Sample.pair.param 0)).apply b == .int) &&
      (((Ty.param (Sample.pair.param 0)).apply b == .string) && true))) = true := hb
    simp only [BEq.rfl, Bool.true_and, Bool.and_true, Bool.and_eq_true] at hboth
    have hsame : (Ty.int == Ty.string) = true := BEq.trans (BEq.symm hboth.1) hboth.2
    cases hsame

end MatchRule

end Introspect

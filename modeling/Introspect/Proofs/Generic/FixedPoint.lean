import Introspect.Proofs.Generic.OpenType
import Introspect.Registry

/-!
The fixed point of inference. A round that finds anything makes an argument known that was missing,
so after as many rounds as there are parameters either all arguments are known, or some round has
found nothing and every later one has started from the same arguments. In both cases a further round
finds nothing, and rounds that stop at the first without a find give the same.
-/

namespace Introspect

/-! ### Growing arguments -/

namespace Extends

variable {before after : List (Option Ty)}

theorem eq_of_forall (h : Extends before after)
    (hnone : ∀ (i : Nat) (t : Ty), after[i]?.join = some t → before[i]?.join ≠ none) : before = after := by
  refine h.antisymm ⟨h.length.symm, fun i t ht => ?_⟩
  obtain ⟨u, hu⟩ := Option.ne_none_iff_exists'.mp (hnone i t ht)
  rw [hu, ← h.kept i u hu, ht]

theorem ne_iff (h : Extends before after) :
    after ≠ before ↔ ∃ (i : Nat) (t : Ty), before[i]?.join = none ∧ after[i]?.join = some t := by
  constructor
  · intro hne
    by_contra hall
    exact hne (h.eq_of_forall fun i t ht hnone => hall ⟨i, t, hnone, ht⟩).symm
  · rintro ⟨i, t, hbefore, hafter⟩ rfl
    rw [hbefore] at hafter
    cases hafter

end Extends

namespace OpenType

open Parameter

variable {ts : TypeSystem} {parameters : List Parameter} {known : List (Option Ty)}

theorem lt_length_of_known {i : Nat} {t : Ty} (h : known[i]?.join = some t) : i < known.length := by
  by_contra hge
  rw [List.getElem?_eq_none (Nat.le_of_not_lt hge)] at h
  cases h

theorem card_missing_lt {before after : List (Option Ty)} (h : Extends before after)
    (hne : after ≠ before) : (missing after).card < (missing before).card := by
  obtain ⟨i, t, hbefore, hafter⟩ := h.ne_iff.mp hne
  have hlt := lt_length_of_known hafter
  apply Finset.card_lt_card
  rw [Finset.ssubset_iff_of_subset (missing_subset h)]
  refine ⟨i, mem_missing.mpr ⟨h.length ▸ hlt, hbefore⟩, fun hmem => ?_⟩
  rw [(mem_missing.mp hmem).2] at hafter
  cases hafter

/-! ### Rounds that find nothing -/

/-- A round that gives back what it got did so at each of its steps. -/
theorem inferStep_eq_of_foldl {ps : List Parameter}
    (h : ps.foldl (inferStep ts parameters) known = known) :
    ∀ p ∈ ps, inferStep ts parameters known p = known := by
  induction ps with
  | nil => exact nofun
  | cons q ps ih =>
    rw [List.foldl_cons] at h
    have hrest := extends_foldl_inferStep ts parameters ps (inferStep ts parameters known q)
    rw [h] at hrest
    have hq := hrest.antisymm (extends_inferStep ts parameters known q)
    rw [hq] at h
    exact List.forall_mem_cons.mpr ⟨hq, ih h⟩

theorem set_ne {i : Nat} (hi : i < known.length) (hnone : known[i]?.join = none) (t : Ty) :
    known.set i (some t) ≠ known := by
  intro h
  have hset := join_getElem?_set hi t
  rw [h, hnone] at hset
  cases hset

/-- Where a round finds nothing, nothing is implied for an argument that is missing. -/
theorem inferOne?_eq_none (h : inferRound ts parameters known = known) {p : Parameter}
    (hp : p ∈ parameters) (hlt : p.position < known.length)
    (hnone : known[p.position]?.join = none) : inferOne? ts parameters known p = none := by
  have hstep := inferStep_eq_of_foldl h p hp
  cases hone : inferOne? ts parameters known p with
  | none => rfl
  | some t =>
    simp only [inferStep, hnone, hone, Option.isSome_none, Bool.false_eq_true, if_false] at hstep
    exact absurd hstep (set_ne hlt hnone t)

/-- Each round finds something or leaves all as it is, and then all later ones do. -/
theorem inferRound_rounds_or (ts : TypeSystem) (parameters : List Parameter)
    (known : List (Option Ty)) (rounds : Nat) :
    inferRound ts parameters (rounds.repeat (inferRound ts parameters) known) =
        rounds.repeat (inferRound ts parameters) known ∨
      (missing (rounds.repeat (inferRound ts parameters) known)).card + rounds ≤ known.length := by
  induction rounds with
  | zero =>
    right
    exact card_missing_le known
  | succ rounds ih =>
    change inferRound ts parameters (inferRound ts parameters _) = inferRound ts parameters _ ∨
      (missing (inferRound ts parameters _)).card + (rounds + 1) ≤ _
    by_cases hfixed : inferRound ts parameters (rounds.repeat (inferRound ts parameters) known) =
        rounds.repeat (inferRound ts parameters) known
    · left
      rw [hfixed, hfixed]
    · right
      have hcard := ih.resolve_left hfixed
      have hlt := card_missing_lt (extends_inferRound ts parameters _) hfixed
      omega

/-- As many rounds as there are arguments reach what no round adds to. -/
theorem inferRound_rounds (ts : TypeSystem) (parameters : List Parameter)
    (known : List (Option Ty)) :
    inferRound ts parameters (known.length.repeat (inferRound ts parameters) known) =
      known.length.repeat (inferRound ts parameters) known := by
  rcases inferRound_rounds_or ts parameters known known.length with hfixed | hcard
  · exact hfixed
  · by_contra hne
    -- None is missing any more, so there is nothing that a round could find.
    have hlt := card_missing_lt (extends_inferRound ts parameters _) hne
    omega

theorem rounds_of_fixed (h : inferRound ts parameters known = known) (rounds : Nat) :
    rounds.repeat (inferRound ts parameters) known = known := by
  induction rounds with
  | zero => rfl
  | succ rounds ih =>
    change inferRound ts parameters (rounds.repeat (inferRound ts parameters) known) = known
    rw [ih, h]

theorem rounds_succ (ts : TypeSystem) (parameters : List Parameter) (known : List (Option Ty))
    (rounds : Nat) :
    (rounds + 1).repeat (inferRound ts parameters) known =
      rounds.repeat (inferRound ts parameters) (inferRound ts parameters known) := by
  induction rounds with
  | zero => rfl
  | succ rounds ih => exact congrArg (inferRound ts parameters) ih

/-! ### Rounds that stop -/

/-- The turn of a parameter in a round, with a note of what it finds. -/
def turn (ts : TypeSystem) (parameters : List Parameter) (found : Inference) (p : Parameter) :
    Inference :=
  if (found.arguments[p.position]?.join).isSome then found
  else
    match inferOne? ts parameters found.arguments p with
    | some t => ⟨found.arguments.set p.position (some t), true⟩
    | none => found

/-- Rounds up to the first that finds nothing, and no more than `rounds`. -/
def inferUntilStable (ts : TypeSystem) (parameters : List Parameter) :
    (rounds : Nat) → Inference → Inference
  | 0, found => found
  | rounds + 1, found =>
    let round := parameters.foldl (turn ts parameters) ⟨found.arguments, false⟩
    if round.inferredAny then inferUntilStable ts parameters rounds round
    else ⟨round.arguments, found.inferredAny⟩

theorem turn_cases (ts : TypeSystem) (parameters : List Parameter) (found : Inference)
    (p : Parameter) :
    (turn ts parameters found p = found ∧
        inferStep ts parameters found.arguments p = found.arguments) ∨
      ∃ t, found.arguments[p.position]?.join = none ∧
        turn ts parameters found p = ⟨found.arguments.set p.position (some t), true⟩ ∧
        inferStep ts parameters found.arguments p = found.arguments.set p.position (some t) := by
  unfold turn inferStep
  split
  next => exact .inl ⟨rfl, rfl⟩
  next hunknown =>
    cases inferOne? ts parameters found.arguments p with
    | none => exact .inl ⟨rfl, rfl⟩
    | some t => exact .inr ⟨t, by simpa using hunknown, rfl, rfl⟩

/-- The turns of a round take the steps of one, and the note says whether it changed anything. -/
theorem foldl_turn {ps : List Parameter} {found : Inference}
    (hps : ∀ p ∈ ps, p.position < found.arguments.length) :
    (ps.foldl (turn ts parameters) found).arguments =
        ps.foldl (inferStep ts parameters) found.arguments ∧
      ((ps.foldl (turn ts parameters) found).inferredAny = true ↔ found.inferredAny = true ∨
        ps.foldl (inferStep ts parameters) found.arguments ≠ found.arguments) := by
  induction ps generalizing found with
  | nil => simp
  | cons p ps ih =>
    rw [List.forall_mem_cons] at hps
    rw [List.foldl_cons, List.foldl_cons]
    rcases turn_cases ts parameters found p with ⟨hturn, hstep⟩ | ⟨t, hnone, hturn, hstep⟩
    · rw [hturn, hstep]
      exact ih hps.2
    · rw [hturn, hstep]
      obtain ⟨harguments, hany⟩ := @ih ⟨found.arguments.set p.position (some t), true⟩
        fun q hq => List.length_set.symm ▸ hps.2 q hq
      refine ⟨harguments, iff_of_true (hany.mpr (.inl rfl)) (.inr fun heq => ?_)⟩
      -- What was found here stays, so the round does not end with the arguments it began with.
      have hkept := (extends_foldl_inferStep ts parameters ps _).kept p.position t
        (join_getElem?_set hps.1 t)
      rw [heq, hnone] at hkept
      cases hkept

/-- Rounds that stop give what all rounds give, and the note says whether they changed anything. -/
theorem inferUntilStable_eq (hps : ∀ p ∈ parameters, p.position < known.length) (rounds : Nat)
    (any : Bool) :
    (inferUntilStable ts parameters rounds ⟨known, any⟩).arguments =
        rounds.repeat (inferRound ts parameters) known ∧
      ((inferUntilStable ts parameters rounds ⟨known, any⟩).inferredAny = true ↔ any = true ∨
        rounds.repeat (inferRound ts parameters) known ≠ known) := by
  induction rounds generalizing known any with
  | zero => exact ⟨rfl, by simp [inferUntilStable, Nat.repeat]⟩
  | succ rounds ih =>
    obtain ⟨hround, hany⟩ := @foldl_turn ts parameters parameters ⟨known, false⟩ hps
    rw [← inferRound_eq_foldl] at hround hany
    rw [rounds_succ, inferUntilStable]
    dsimp only
    split
    next hfound =>
      have hextends := extends_inferRound ts parameters known
      obtain ⟨harguments, hnote⟩ := ih (fun p hp => hextends.length.symm ▸ hps p hp) true
      have heq : parameters.foldl (turn ts parameters) ⟨known, false⟩ =
          ⟨inferRound ts parameters known, true⟩ := by
        rw [← hround, ← hfound]
      rw [heq]
      refine ⟨harguments, iff_of_true (hnote.mpr (.inl rfl)) (.inr fun hback => ?_)⟩
      -- Later rounds do not take back what this one found.
      have hchanged : inferRound ts parameters known ≠ known := by simpa using hany.mp hfound
      have hlater := extends_rounds ts parameters rounds (inferRound ts parameters known)
      rw [hback] at hlater
      exact hchanged (hlater.antisymm hextends)
    next hnone =>
      have hfixed : inferRound ts parameters known = known := by
        by_contra hne
        exact hnone (hany.mpr (.inr hne))
      rw [hfixed, rounds_of_fixed hfixed]
      exact ⟨hround.trans hfixed, by simp⟩

/-! ### Inference -/

/-- The generic types that can be built: one that is taken up, and then arguments one by one. -/
inductive Built (ts : TypeSystem) : OpenType → Prop
  | taken {t : Ty} {o : OpenType} (h : ofTy ts t = .ok o) : Built ts o
  | substituted {o o' : OpenType} {position : Nat} {t : Ty} (ho : Built ts o)
      (h : o.withArgument ts position t = .ok o') : Built ts o'

theorem Built.length {o : OpenType} (h : o.Built ts) :
    o.arguments.length = o.definition.params.length := by
  induction h with
  | taken h =>
    obtain ⟨d, args, rfl⟩ := exists_initial_of_ofTy h
    exact length_initial d args
  | substituted _ h ih =>
    obtain ⟨declared, -, -, rfl⟩ := withArgument_eq_ok.mp h
    exact List.length_set.trans ih

theorem position_lt {o : OpenType} (hlen : o.arguments.length = o.definition.params.length) :
    ∀ p ∈ o.parameters, p.position < o.arguments.length := by
  intro p hp
  obtain ⟨i, declared, hi, rfl⟩ := mem_all.mp hp
  rw [hlen]
  exact (List.getElem?_eq_some_iff.mp hi).1

theorem infer_arguments {o : OpenType} (hlen : o.arguments.length = o.definition.params.length) :
    (o.infer ts).arguments = o.arguments.length.repeat (inferRound ts o.parameters) o.arguments := by
  rw [hlen, ← length_all o.definition]
  rfl

theorem inferRound_infer {o : OpenType} (hlen : o.arguments.length = o.definition.params.length) :
    inferRound ts o.parameters (o.infer ts).arguments = (o.infer ts).arguments := by
  rw [infer_arguments hlen]
  exact inferRound_rounds ts o.parameters o.arguments

theorem inferredAny_eq_true_iff {o : OpenType} : (o.infer ts).inferredAny = true ↔
    ∃ (i : Nat) (t : Ty), o.arguments[i]?.join = none ∧ (o.infer ts).arguments[i]?.join = some t := by
  have hlength := (extends_infer ts o).length
  change (((o.infer ts).arguments.zip o.arguments).any
    fun pair => pair.1.isSome && pair.2.isNone) = true ↔ _
  rw [List.any_eq_true]
  constructor
  · rintro ⟨⟨after, before⟩, hmem, h⟩
    obtain ⟨i, hi⟩ := List.mem_iff_getElem?.mp hmem
    obtain ⟨hafter, hbefore⟩ := List.getElem?_zip_eq_some.mp hi
    rw [Bool.and_eq_true, Option.isNone_iff_eq_none, Option.isSome_iff_exists] at h
    obtain ⟨⟨t, rfl⟩, rfl⟩ := h
    exact ⟨i, t, by rw [hbefore]; rfl, by rw [hafter]; rfl⟩
  · rintro ⟨i, t, hbefore, hafter⟩
    have hi := lt_length_of_known hafter
    have hi' : i < o.arguments.length := hlength ▸ hi
    rw [List.getElem?_eq_getElem hi] at hafter
    rw [List.getElem?_eq_getElem hi'] at hbefore
    refine ⟨((o.infer ts).arguments[i], o.arguments[i]), List.mem_iff_getElem?.mpr ⟨i, ?_⟩, ?_⟩
    · rw [List.getElem?_zip_eq_some]
      exact ⟨List.getElem?_eq_getElem hi, List.getElem?_eq_getElem hi'⟩
    · change (o.infer ts).arguments[i] = some t at hafter
      change o.arguments[i] = none at hbefore
      rw [hafter, hbefore]
      rfl

theorem infer_eq_inferUntilStable {o : OpenType}
    (hlen : o.arguments.length = o.definition.params.length) :
    o.infer ts = inferUntilStable ts o.parameters o.parameters.length ⟨o.arguments, false⟩ := by
  have hparameters : o.parameters.length = o.arguments.length := by
    rw [hlen]
    exact length_all o.definition
  obtain ⟨harguments, hany⟩ := @inferUntilStable_eq ts o.parameters o.arguments (position_lt hlen)
    o.parameters.length false
  rw [hparameters] at harguments hany ⊢
  rw [← infer_arguments hlen] at harguments hany
  have hnote : (o.infer ts).inferredAny =
      (inferUntilStable ts o.parameters o.arguments.length ⟨o.arguments, false⟩).inferredAny := by
    rw [Bool.eq_iff_iff, hany, inferredAny_eq_true_iff, (extends_infer ts o).ne_iff]
    simp
  change Inference.mk (o.infer ts).arguments (o.infer ts).inferredAny = _
  rw [← harguments, hnote]

/-- From a parameter that no constraint mentions nothing is inferred. -/
theorem inferFrom?_eq_none {p dependent : Parameter} {concrete : Ty} {b : Bindings}
    (h : ∀ k ∈ dependent.constraints, k.mentions p.param = false) :
    p.inferFrom? ts dependent concrete b = none := by
  have hfilter : dependent.constraints.filter (fun k => k.mentions p.param) = [] :=
    List.filter_eq_nil_iff.mpr fun k hk => by rw [h k hk]; exact Bool.false_ne_true
  unfold inferFrom?
  dsimp only
  rw [hfilter]
  rfl

theorem infer_again {o : OpenType} (hlen : o.arguments.length = o.definition.params.length) :
    { o with arguments := (o.infer ts).arguments }.infer ts =
      ⟨(o.infer ts).arguments, false⟩ := by
  have hlength := (extends_infer ts o).length
  have hsame : ({ o with arguments := (o.infer ts).arguments }.infer ts).arguments =
      (o.infer ts).arguments := by
    rw [infer_arguments (hlength.trans hlen)]
    exact rounds_of_fixed (inferRound_infer hlen) _
  have hnone : ({ o with arguments := (o.infer ts).arguments }.infer ts).inferredAny = false := by
    rw [Bool.eq_false_iff, ne_eq, inferredAny_eq_true_iff, hsame]
    rintro ⟨i, t, hbefore, hafter⟩
    rw [hbefore] at hafter
    cases hafter
  change Inference.mk (infer ts _).arguments (infer ts _).inferredAny = _
  rw [hsame, hnone]

theorem infer_exhausted {o : OpenType} (hlen : o.arguments.length = o.definition.params.length)
    {p : Parameter} (hp : p ∈ o.parameters)
    (hnone : (o.infer ts).arguments[p.position]?.join = none) {j : Nat} {dependent : Parameter}
    {concrete : Ty} (hj : o.parameters[j]? = some dependent)
    (hconcrete : (o.infer ts).arguments[j]?.join = some concrete) :
    p.inferFrom? ts dependent concrete (bindingsOf o.parameters (o.infer ts).arguments) = none := by
  have hlt : p.position < (o.infer ts).arguments.length :=
    (extends_infer ts o).length ▸ position_lt hlen p hp
  have hone := inferOne?_eq_none (inferRound_infer hlen) hp hlt hnone
  by_cases hmem : j ∈ p.dependedOnBy
  · have hfrom := List.findSome?_eq_none_iff.mp hone j hmem
    simpa [hconcrete, hj] using hfrom
  · obtain ⟨i, declared, hi, rfl⟩ := mem_all.mp hp
    rw [parameters, getElem?_all, Option.map_eq_some_iff] at hj
    obtain ⟨declared', hj, rfl⟩ := hj
    refine inferFrom?_eq_none fun k hk => ?_
    by_contra hmention
    have hne : j ≠ i := by
      rintro rfl
      rw [ofDeclared_position] at hnone
      rw [hnone] at hconcrete
      cases hconcrete
    have hlt : i < o.definition.params.length := (List.getElem?_eq_some_iff.mp hi).1
    rw [ofDeclared_param hi, Bool.not_eq_false] at hmention
    exact hmem ((mem_dependedOnBy hlt).mpr ⟨hne, hlt, declared', hj, k, hk, hmention⟩)

/-- What inference makes of the known arguments. -/
structure Settles (ts : TypeSystem) (o : OpenType) (found : Inference) : Prop where
  kept : Extends o.arguments found.arguments
  closed : ∀ (i : Nat) (t : Ty), o.arguments[i]?.join = none →
    found.arguments[i]?.join = some t → t.isOpen = false
  inferredAny : found.inferredAny = true ↔
    ∃ (i : Nat) (t : Ty), o.arguments[i]?.join = none ∧ found.arguments[i]?.join = some t
  again : { o with arguments := found.arguments }.infer ts = ⟨found.arguments, false⟩
  exhausted : ∀ p ∈ o.parameters, found.arguments[p.position]?.join = none →
    ∀ (j : Nat) (dependent : Parameter) (concrete : Ty), o.parameters[j]? = some dependent →
      found.arguments[j]?.join = some concrete →
      p.inferFrom? ts dependent concrete (bindingsOf o.parameters found.arguments) = none

/-- Inference ends with a fixed point: as rounds that stop at the first without a find do, it keeps
what is known, adds closed types, and leaves no argument out that a known one implies. -/
theorem infer_settles {o : OpenType} (h : o.Built ts) :
    o.infer ts = inferUntilStable ts o.parameters o.parameters.length ⟨o.arguments, false⟩ ∧
      o.Settles ts (o.infer ts) := by
  have hlen := h.length
  refine ⟨infer_eq_inferUntilStable hlen, ?_⟩
  constructor
  case kept => exact extends_infer ts o
  case closed =>
    intro i t hnone ht
    rcases known_of_infer ht with hknown | hclosed
    · rw [hnone] at hknown
      cases hknown
    · exact hclosed
  case inferredAny => exact inferredAny_eq_true_iff
  case again => exact infer_again hlen
  case exhausted =>
    intro p hp hnone j dependent concrete hj hconcrete
    exact infer_exhausted hlen hp hnone hj hconcrete

namespace Sample

/-- A class `Grid<Item, Row: IEnumerable<Item>, Rows: IEnumerable<Row>>`. -/
def grid : TypeDef :=
  { TypeDef.new "Grid" .classType with
    params := [⟨"Item", .none, []⟩,
      ⟨"Row", .none, [.enumerable (.param ⟨"Grid", 0, "Item"⟩)]⟩,
      ⟨"Rows", .none, [.enumerable (.param ⟨"Grid", 1, "Row"⟩)]⟩] }

def gridTypes : TypeSystem := (Registry.builtin.register grid).types 16

/-- The class with its rows known. -/
def withRows : OpenType := ⟨grid, [none, none, some (.list (.list .int))]⟩

theorem built_withRows : withRows.Built gridTypes := by
  have htaken : ofTy gridTypes (.named "Grid" []) = .ok (initial grid []) := rfl
  have hrows : (initial grid []).withArgument gridTypes 2 (.list (.list .int)) = .ok withRows := rfl
  exact .substituted (.taken htaken) hrows

end Sample

/-- The items are found in a second round, as their turn comes before that of the row. -/
theorem infer_settles_withRows : Sample.withRows.Built Sample.gridTypes ∧
    (Sample.withRows.infer Sample.gridTypes).arguments =
      [some .int, some (.list .int), some (.list (.list .int))] ∧
    Sample.withRows.Settles Sample.gridTypes (Sample.withRows.infer Sample.gridTypes) :=
  ⟨Sample.built_withRows, rfl, (infer_settles Sample.built_withRows).2⟩

end OpenType

end Introspect

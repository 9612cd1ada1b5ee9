import Introspect.Proofs.Ty.Hierarchy
import Mathlib.Order.Lattice.Nat

/-!
Supertypes as a breadth-first closure. The walk up from a type takes up all types at one distance
before any that is farther. Where only finitely many types are above, each of them queues its direct
supertypes once, so the walk ends under every limit that is high enough.
-/

namespace Introspect

namespace TypeSystem

open Ty (Same)

variable {ts : TypeSystem} {t u v : Ty}

/-! ### Ways up -/

/-- A declared base or interface of a named type, or an interface of an array. -/
inductive DirectSupertype (ts : TypeSystem) : Ty → Ty → Prop
  | base {n : String} {args : List Ty} {d : TypeDef} {b : Ty} (hd : ts.find? n = some d)
      (hb : d.base = some b) : DirectSupertype ts (.named n args) (b.instantiate d.name args)
  | interface {n : String} {args : List Ty} {d : TypeDef} {i : Ty} (hd : ts.find? n = some d)
      (hi : i ∈ d.interfaces) : DirectSupertype ts (.named n args) (i.instantiate d.name args)
  | enumerable (elem : Ty) : DirectSupertype ts (.array elem) (.enumerable elem)
  | listInterface (elem : Ty) : DirectSupertype ts (.array elem) .listInterface

theorem mem_directSupertypes : u ∈ ts.directSupertypes t ↔ ts.DirectSupertype t u := by
  constructor
  · intro h
    cases t with
    | named n args =>
      simp only [directSupertypes] at h
      split at h
      next d hd =>
        obtain ⟨b, hb, rfl⟩ := List.mem_map.mp h
        rcases List.mem_append.mp hb with hb | hb
        · exact .base hd (Option.mem_toList.mp hb)
        · exact .interface hd hb
      next => cases h
    | array elem =>
      simp only [directSupertypes, List.mem_cons, List.not_mem_nil, or_false] at h
      rcases h with rfl | rfl
      · exact .enumerable elem
      · exact .listInterface elem
    | param p => cases h
  · intro h
    cases h with
    | base hd hb =>
      simp only [directSupertypes, hd]
      exact List.mem_map_of_mem (List.mem_append_left _ (Option.mem_toList.mpr hb))
    | interface hd hi =>
      simp only [directSupertypes, hd]
      exact List.mem_map_of_mem (List.mem_append_right _ hi)
    | enumerable elem => simp [directSupertypes]
    | listInterface elem => simp [directSupertypes]

/-- What is above a type is above each spelling of it, but for names. -/
theorem DirectSupertype.congr {s : Ty} (h : ts.DirectSupertype u v) (hus : u.Same s) :
    ∃ w, ts.DirectSupertype s w ∧ v.Same w := by
  obtain ⟨w, hw, hvw⟩ := exists_same_of_mem (ts.directSupertypes_congr hus)
    (mem_directSupertypes.mpr h)
  exact ⟨w, mem_directSupertypes.mp hw, hvw⟩

/-- The ends of the ways up from a type, by the number of their edges. -/
inductive Climbs (ts : TypeSystem) (t : Ty) : Nat → Ty → Prop
  | start : Climbs ts t 0 t
  | up {n : Nat} {u v : Ty} (hu : Climbs ts t n u) (huv : ts.DirectSupertype u v) :
      Climbs ts t (n + 1) v

/-- Whether a way of `n` edges leads up to a type, whatever the names of its parameters. -/
def Above (ts : TypeSystem) (t : Ty) (n : Nat) (u : Ty) : Prop := ∃ v, ts.Climbs t n v ∧ u.Same v

def Reaches (ts : TypeSystem) (t u : Ty) : Prop := ∃ n, ts.Above t n u

/-- The number of edges of the shortest way up. -/
noncomputable def distance (ts : TypeSystem) (t u : Ty) : Nat := sInf {n | ts.Above t n u}

theorem Climbs.above {n : Nat} (h : ts.Climbs t n u) : ts.Above t n u := ⟨u, h, BEq.rfl⟩

theorem reaches_congr (h : u.Same v) : ts.Reaches t u ↔ ts.Reaches t v := by
  have hone {u v : Ty} (h : u.Same v) (hv : ts.Reaches t v) : ts.Reaches t u := by
    obtain ⟨n, w, hw, hvw⟩ := hv
    exact ⟨n, w, hw, BEq.trans h hvw⟩
  exact ⟨hone (BEq.symm h), hone h⟩

/-! ### Levels of the walk -/

/-- Whether one type is no farther up than another one. -/
def NotFarther (ts : TypeSystem) (t u v : Ty) : Prop :=
  ∀ n, ts.Above t n v → ∃ m ≤ n, ts.Above t m u

theorem NotFarther.distance_le (h : ts.NotFarther t u v) (hv : ts.Reaches t v) :
    ts.distance t u ≤ ts.distance t v := by
  have hshortest : ts.Above t (ts.distance t v) v := Nat.sInf_mem hv
  obtain ⟨m, hle, hu⟩ := h _ hshortest
  have hdistance : ts.distance t u ≤ m := Nat.sInf_le hu
  exact Nat.le_trans hdistance hle

/-- The walk amid the types at distance `k`: those in `row` are still to come, and `next` has what is
above the others. -/
structure Frontier (ts : TypeSystem) (t : Ty) (k : Nat) (row next seen : List Ty) : Prop where
  climbsRow : ∀ u ∈ row, ts.Climbs t k u
  climbsNext : ∀ u ∈ next, ts.Climbs t (k + 1) u
  climbsSeen : ∀ u ∈ seen, ∃ m ≤ k, ts.Climbs t m u
  closer : ∀ m < k, ∀ u, ts.Climbs t m u → seen.contains u = true
  level : ∀ u, ts.Climbs t k u → (seen ++ row).contains u = true
  above : ∀ s ∈ seen, ∀ u ∈ ts.directSupertypes s, (seen ++ row ++ next).contains u = true
  distinct : seen.Pairwise fun u v => (u == v) = false
  ordered : seen.Pairwise (ts.NotFarther t)

theorem beq_eq_false_of_mem {seen : List Ty} (hnew : seen.contains t = false) (hu : u ∈ seen) :
    (u == t) = false := by
  rw [Bool.eq_false_iff]
  intro hsame
  rw [← contains_congr_same hsame, contains_of_mem hu] at hnew
  cases hnew

namespace Frontier

variable {k : Nat} {row next seen : List Ty}

theorem start (ts : TypeSystem) (t : Ty) : ts.Frontier t 0 [t] [] [] := by
  constructor
  case climbsRow =>
    intro u hu
    rw [List.mem_singleton.mp hu]
    exact .start
  case level =>
    intro u hu
    cases hu
    exact contains_of_mem (List.mem_singleton_self t)
  all_goals simp

/-- A row that is used up makes way for the next one, one edge farther up. -/
theorem shift (h : ts.Frontier t k [] next seen) : ts.Frontier t (k + 1) next [] seen := by
  have hlevel : ∀ u, ts.Climbs t k u → seen.contains u = true := by
    intro u hu
    rw [← List.append_nil seen]
    exact h.level u hu
  constructor
  case climbsRow => exact h.climbsNext
  case climbsNext => exact nofun
  case climbsSeen =>
    intro u hu
    obtain ⟨m, hm, hclimb⟩ := h.climbsSeen u hu
    exact ⟨m, Nat.le_succ_of_le hm, hclimb⟩
  case closer =>
    intro m hm u hu
    -- Distance `k` is done with, as nothing of its row is left.
    rcases Nat.lt_succ_iff_lt_or_eq.mp hm with hm | rfl
    · exact h.closer m hm u hu
    · exact hlevel u hu
  case level =>
    intro v hv
    cases hv with
    | @up _ u _ hu huv =>
      -- Another spelling of `u` may have been taken up for it.
      obtain ⟨s, hs, hus⟩ := List.contains_iff_exists_mem_beq.mp (hlevel u hu)
      obtain ⟨w, hw, hvw⟩ := huv.congr hus
      rw [contains_congr_same hvw]
      have habove := h.above s hs w (mem_directSupertypes.mpr hw)
      rwa [List.append_nil] at habove
  case above =>
    intro s hs u hu
    have habove := h.above s hs u hu
    rwa [List.append_nil] at habove ⊢
  case distinct => exact h.distinct
  case ordered => exact h.ordered

/-- The next type of a queue is one of the row, if need be of a new one. -/
theorem turn {rest : List Ty} (h : ts.Frontier t k row next seen) (hqueue : row ++ next = u :: rest) :
    ∃ k' row' next', ts.Frontier t k' (u :: row') next' seen ∧ row' ++ next' = rest := by
  cases row with
  | nil =>
    -- The type is the first of the next row, which nothing was queued behind yet.
    rw [List.nil_append] at hqueue
    rw [hqueue] at h
    exact ⟨k + 1, rest, [], h.shift, List.append_nil rest⟩
  | cons v row =>
    rw [List.cons_append, List.cons.injEq] at hqueue
    obtain ⟨rfl, hrest⟩ := hqueue
    exact ⟨k, row, next, h, hrest⟩

theorem again (h : ts.Frontier t k (u :: row) next seen) (hseen : seen.contains u = true) :
    ts.Frontier t k row next seen := by
  constructor
  case climbsRow => exact (List.forall_mem_cons.mp h.climbsRow).2
  case climbsNext => exact h.climbsNext
  case climbsSeen => exact h.climbsSeen
  case closer => exact h.closer
  case level => exact fun v hv => contains_of_cons hseen (h.level v hv)
  case above =>
    intro s hs v hv
    have habove := h.above s hs v hv
    rw [List.append_assoc, List.cons_append] at habove
    rw [List.append_assoc]
    exact contains_of_cons hseen habove
  case distinct => exact h.distinct
  case ordered => exact h.ordered

/-- A new type of the row is at the distance of the row, as all that are closer were taken up. -/
theorem le_of_new (h : ts.Frontier t k (u :: row) next seen) (hnew : seen.contains u = false) {n : Nat}
    (hn : ts.Above t n u) : k ≤ n := by
  by_contra hlt
  obtain ⟨v, hv, huv⟩ := hn
  have hcloser := h.closer n (Nat.lt_of_not_le hlt) v hv
  rw [← contains_congr_same huv, hnew] at hcloser
  cases hcloser

theorem enter (h : ts.Frontier t k (u :: row) next seen) (hnew : seen.contains u = false) :
    ts.Frontier t k row (next ++ ts.directSupertypes u) (seen ++ [u]) := by
  obtain ⟨hu, hrow⟩ := List.forall_mem_cons.mp h.climbsRow
  have hsplit : ∀ s ∈ seen ++ [u], s ∈ seen ∨ s = u := by simp
  constructor
  case climbsRow => exact hrow
  case climbsNext =>
    intro v hv
    rcases List.mem_append.mp hv with hv | hv
    · exact h.climbsNext v hv
    · exact .up hu (mem_directSupertypes.mp hv)
  case climbsSeen =>
    intro s hs
    rcases hsplit s hs with hs | rfl
    · exact h.climbsSeen s hs
    · exact ⟨k, Nat.le_refl k, hu⟩
  case closer =>
    intro m hm v hv
    rw [List.contains_append, h.closer m hm v hv, Bool.true_or]
  case level =>
    intro v hv
    rw [List.append_assoc]
    exact h.level v hv
  case above =>
    intro s hs v hv
    rcases hsplit s hs with hs | rfl
    · have habove := h.above s hs v hv
      simp only [List.contains_append, List.contains_cons, Bool.or_eq_true] at habove ⊢
      tauto
    · exact contains_of_mem (List.mem_append_right _ (List.mem_append_right _ hv))
  case distinct =>
    rw [List.pairwise_append]
    refine ⟨h.distinct, List.pairwise_singleton _ u, fun s hs v hv => ?_⟩
    rw [List.mem_singleton.mp hv]
    exact beq_eq_false_of_mem hnew hs
  case ordered =>
    rw [List.pairwise_append]
    refine ⟨h.ordered, List.pairwise_singleton _ u, fun s hs v hv n hn => ?_⟩
    rw [List.mem_singleton.mp hv] at hn
    -- What was taken up is at distance `k` at most, and the new type at `k` at least.
    obtain ⟨m, hm, hclimb⟩ := h.climbsSeen s hs
    exact ⟨m, Nat.le_trans hm (h.le_of_new hnew hn), hclimb.above⟩

end Frontier

/-- A finished walk has taken up different types, none of them after one that is farther up. -/
theorem ordered_of_closure? {fuel : Nat} {found : List Ty}
    (h : ts.closure? fuel [t] [] = some found) :
    found.Pairwise (fun u v => (u == v) = false) ∧ found.Pairwise (ts.NotFarther t) := by
  -- The queue is always what is left of one row, and then the next row as far as it is known.
  have hend := ts.closure?_induction
    (motive := fun queue seen => ∃ k row next, ts.Frontier t k row next seen ∧ row ++ next = queue)
    (fun u rest seen hseen hmotive => by
      obtain ⟨k, row, next, hfrontier, hqueue⟩ := hmotive
      obtain ⟨k', row', next', hturn, rfl⟩ := hfrontier.turn hqueue
      exact ⟨k', row', next', hturn.again hseen, rfl⟩)
    (fun u rest seen hnew hmotive => by
      obtain ⟨k, row, next, hfrontier, hqueue⟩ := hmotive
      obtain ⟨k', row', next', hturn, rfl⟩ := hfrontier.turn hqueue
      exact ⟨k', row', next' ++ ts.directSupertypes u, hturn.enter hnew,
        (List.append_assoc row' next' _).symm⟩) h ⟨0, [t], [], .start ts t, rfl⟩
  obtain ⟨_, _, _, hfrontier, _⟩ := hend
  exact ⟨hfrontier.distinct, hfrontier.ordered⟩

/-! ### What the walk takes up -/

/-- A finished walk has taken up what is reached, and nothing else. -/
theorem contains_closure?_iff {fuel : Nat} {found : List Ty}
    (h : ts.closure? fuel [t] [] = some found) : found.contains u = true ↔ ts.Reaches t u := by
  obtain ⟨hall, hclosed⟩ := contains_of_closure? h
  constructor
  · intro hu
    obtain ⟨v, hv, huv⟩ := List.contains_iff_exists_mem_beq.mp hu
    have hstep : ∀ s, (∃ n, ts.Climbs t n s) → ∀ w ∈ ts.directSupertypes s, ∃ n, ts.Climbs t n w :=
      fun s ⟨n, hs⟩ w hw => ⟨n + 1, .up hs (mem_directSupertypes.mp hw)⟩
    have hclimbs := mem_of_mem_closure? hstep h fun s hs => ⟨0, List.mem_singleton.mp hs ▸ .start⟩
    obtain ⟨n, hn⟩ := hclimbs v hv
    exact ⟨n, v, hn, huv⟩
  · rintro ⟨n, v, hv, huv⟩
    rw [contains_congr_same huv]
    clear huv
    -- By induction on the way up, which may pass through other spellings than the walk does.
    induction hv with
    | start => exact hall t (List.mem_singleton_self t)
    | up _ hvw ih =>
      obtain ⟨s, hs, hvs⟩ := List.contains_iff_exists_mem_beq.mp ih
      obtain ⟨w, hw, hsame⟩ := hvw.congr hvs
      rw [contains_congr_same hsame]
      exact hclosed s hs w (mem_directSupertypes.mpr hw)

/-! ### Limits -/

/-- The same definitions under another limit. -/
def withLimit (ts : TypeSystem) (limit : Nat) : TypeSystem := { ts with limit := limit }

theorem withLimit_limit (ts : TypeSystem) (limit : Nat) : (ts.withLimit limit).limit = limit := rfl

theorem closure?_withLimit (ts : TypeSystem) (limit fuel : Nat) (queue seen : List Ty) :
    (ts.withLimit limit).closure? fuel queue seen = ts.closure? fuel queue seen := by
  induction fuel generalizing queue seen with
  | zero => cases queue <;> rfl
  | succ fuel ih =>
    cases queue with
    | nil => rfl
    | cons t rest =>
      have hdirect : (ts.withLimit limit).directSupertypes t = ts.directSupertypes t := by
        cases t <;> rfl
      simp only [closure?, ih, hdirect]

/-! ### Supertypes -/

/-- Types in the order of a breadth-first closure: first the type itself, then what is above it by
distance, and `object` at the end if it is not among that. -/
structure BreadthFirst (ts : TypeSystem) (t : Ty) (sups : List Ty) : Prop where
  head : sups.head? = some t
  distinct : sups.Pairwise fun u v => (u == v) = false
  contains_iff : ∀ u, sups.contains u = true ↔
    ts.Reaches t u ∨ (t.isParam = false ∧ u.Same .object)
  ordered : sups.Pairwise fun u v => ts.Reaches t v → ts.distance t u ≤ ts.distance t v
  object_last : t.isParam = false → ¬ts.Reaches t .object → sups.getLast? = some .object

/-- A finished walk makes up the supertypes under its limit and under every higher one. -/
theorem breadthFirst_supertypes {bound limit : Nat} {found : List Ty}
    (h : ts.closure? bound [t] [] = some found) (hlimit : bound ≤ limit) :
    ts.BreadthFirst t ((ts.withLimit limit).supertypes t) := by
  have hfound := ts.closure?_mono hlimit h
  have hsups : (ts.withLimit limit).supertypes t =
      if t.isParam || found.contains .object then found else found ++ [.object] := by
    have hwalk : (ts.withLimit limit).closure? limit [t] [] = some found := by
      rw [closure?_withLimit, hfound]
    rw [supertypes, supertypes?, withLimit_limit, hwalk, Option.map_some, Option.getD_some]
  rw [hsups]
  obtain ⟨hdistinct, hnotFarther⟩ := ordered_of_closure? hfound
  have hcontains (u : Ty) : found.contains u = true ↔ ts.Reaches t u := contains_closure?_iff hfound
  have hordered := hnotFarther.imp fun hnot => hnot.distance_le
  split
  next hkept =>
    have hobject : t.isParam = false → ts.Reaches t .object := by
      intro hparam
      rw [hparam, Bool.false_or] at hkept
      exact (hcontains .object).mp hkept
    constructor
    case head => exact head?_of_closure? hfound
    case distinct => exact hdistinct
    case contains_iff =>
      intro u
      rw [hcontains u]
      refine ⟨.inl, ?_⟩
      rintro (hu | ⟨hparam, hu⟩)
      · exact hu
      · exact reaches_congr hu |>.mpr (hobject hparam)
    case ordered => exact hordered
    case object_last => exact fun hparam hnot => absurd (hobject hparam) hnot
  next hadded =>
    rw [Bool.or_eq_true, not_or, Bool.not_eq_true, Bool.not_eq_true] at hadded
    obtain ⟨hparam, hobject⟩ := hadded
    constructor
    case head =>
      rw [List.head?_append, head?_of_closure? hfound]
      rfl
    case distinct =>
      rw [List.pairwise_append]
      refine ⟨hdistinct, List.pairwise_singleton _ _, fun u hu v hv => ?_⟩
      rw [List.mem_singleton.mp hv]
      exact beq_eq_false_of_mem hobject hu
    case contains_iff =>
      intro u
      rw [List.contains_append, Bool.or_eq_true, hcontains u, List.contains_cons, List.contains_nil,
        Bool.or_false]
      exact or_congr_right (and_iff_right hparam).symm
    case ordered =>
      rw [List.pairwise_append]
      refine ⟨hordered, List.pairwise_singleton _ _, fun u hu v hv hreached => ?_⟩
      rw [List.mem_singleton.mp hv, ← hcontains, hobject] at hreached
      cases hreached
    case object_last => exact fun _ _ => List.getLast?_concat

/-! ### The end of the walk -/

/-- Whether only finitely many types are reached, the names of parameters aside. -/
def FinitelyAbove (ts : TypeSystem) (t : Ty) : Prop :=
  ∃ types : List Ty, ∀ u, ts.Reaches t u → types.contains u = true

/-- The number of edges that lead up from a type and are not queued yet. -/
def pendingAt (ts : TypeSystem) (seen : List Ty) (u : Ty) : Nat :=
  if seen.contains u then 0 else (ts.directSupertypes u).length

def pending (ts : TypeSystem) (seen : List Ty) : (types : List Ty) → Nat
  | [] => 0
  | u :: types => ts.pendingAt seen u + pending ts seen types

theorem pendingAt_append_le (ts : TypeSystem) (seen more : List Ty) (u : Ty) :
    ts.pendingAt (seen ++ more) u ≤ ts.pendingAt seen u := by
  unfold pendingAt
  rw [List.contains_append]
  cases seen.contains u with
  | true => exact Nat.le_refl 0
  | false =>
    rw [Bool.false_or, if_neg Bool.false_ne_true]
    split
    · exact Nat.zero_le _
    · exact Nat.le_refl _

theorem pending_append_le (ts : TypeSystem) (seen more types : List Ty) :
    ts.pending (seen ++ more) types ≤ ts.pending seen types := by
  induction types with
  | nil => exact Nat.le_refl 0
  | cons u types ih => exact Nat.add_le_add (ts.pendingAt_append_le seen more u) ih

/-- Once a type is taken up its edges are pending no more. -/
theorem pending_enter {seen types : List Ty} (hu : types.contains u = true)
    (hnew : seen.contains u = false) :
    ts.pending (seen ++ [u]) types + (ts.directSupertypes u).length ≤ ts.pending seen types := by
  induction types with
  | nil => cases hu
  | cons v types ih =>
    simp only [pending]
    by_cases huv : u.Same v
    · have hlength := (ts.directSupertypes_congr huv).length_eq
      have hbefore : ts.pendingAt seen v = (ts.directSupertypes v).length := by
        rw [pendingAt, ← contains_congr_same huv, hnew, if_neg Bool.false_ne_true]
      have hafter : ts.pendingAt (seen ++ [u]) v = 0 := by
        have hseen : (seen ++ [u]).contains u = true :=
          contains_of_mem (List.mem_append_right _ (List.mem_singleton_self u))
        rw [pendingAt, ← contains_congr_same huv, hseen, if_pos rfl]
      -- There may be more spellings of `u` in the rest, whose edges are pending no more either.
      have hrest := ts.pending_append_le seen [u] types
      omega
    · have hrest := ih (by simpa [List.contains_cons, huv] using hu)
      have hhead := ts.pendingAt_append_le seen [u] v
      omega

/-- Each type that is taken up queues what was pending, so that a bounded number of turns is enough. -/
theorem isSome_closure? {types : List Ty}
    (htypes : ∀ u, ts.Reaches t u → types.contains u = true) {fuel : Nat} {queue seen : List Ty}
    (hqueue : ∀ u ∈ queue, ∃ n, ts.Climbs t n u)
    (hfuel : queue.length + ts.pending seen types ≤ fuel) :
    (ts.closure? fuel queue seen).isSome = true := by
  induction fuel generalizing queue seen with
  | zero =>
    cases queue with
    | nil => rfl
    | cons u rest => simp at hfuel
  | succ fuel ih =>
    cases queue with
    | nil => rfl
    | cons u rest =>
      obtain ⟨⟨n, hu⟩, hrest⟩ := List.forall_mem_cons.mp hqueue
      rw [List.length_cons] at hfuel
      simp only [closure?]
      split
      next => exact ih hrest (by omega)
      next hnew =>
        refine ih (fun v hv => ?_) ?_
        · rcases List.mem_append.mp hv with hv | hv
          · exact hrest v hv
          · exact ⟨n + 1, .up hu (mem_directSupertypes.mp hv)⟩
        · have htaken := htypes u ⟨n, hu.above⟩
          have henter : ts.pending (seen ++ [u]) types + (ts.directSupertypes u).length ≤
              ts.pending seen types := pending_enter htaken (Bool.eq_false_iff.mpr hnew)
          rw [List.length_append]
          omega

/-- The walk ends exactly if it has finitely many types to take up. -/
theorem finitelyAbove_iff :
    ts.FinitelyAbove t ↔ ∃ fuel found, ts.closure? fuel [t] [] = some found := by
  constructor
  · rintro ⟨types, htypes⟩
    have hstart : ∀ u ∈ [t], ∃ n, ts.Climbs t n u := List.forall_mem_singleton.mpr ⟨0, .start⟩
    have hsome := isSome_closure? htypes hstart (Nat.le_refl ([t].length + ts.pending [] types))
    exact ⟨_, Option.isSome_iff_exists.mp hsome⟩
  · rintro ⟨fuel, found, hfound⟩
    exact ⟨found, fun u => (contains_closure?_iff hfound).mpr⟩

/-- Where only finitely many types are above a type, its supertypes are their breadth-first closure
under every limit that is high enough. -/
theorem supertypes_breadthFirst (h : ts.FinitelyAbove t) :
    ∃ bound, ∀ limit, bound ≤ limit → ts.BreadthFirst t ((ts.withLimit limit).supertypes t) := by
  obtain ⟨bound, found, hfound⟩ := finitelyAbove_iff.mp h
  exact ⟨bound, fun _ hlimit => breadthFirst_supertypes hfound hlimit⟩

namespace Sample

def one (name : String) (arg : Ty) : Ty := .named name [arg]

/-- A class with one parameter. -/
def generic (name : String) (base : Ty → Ty) (interfaces : Ty → List Ty) : TypeDef :=
  let t := Ty.param ⟨name, 0, "T"⟩
  { TypeDef.new name .classType with
    params := [⟨"T", .none, []⟩], base := some (base t), interfaces := interfaces t }

/-- A diamond from `Both<T>` up to `Root<T>`. Each `Both<T>` is a `Both<int>` too, and a root has a
`Left<int>` as its base, so that `Left<int>` and `Root<int>` are bases of each other. -/
def diamond : TypeSystem where
  find? := Registry.find? ⟨Registry.builtin.definitions ++
    [generic "Root" (fun _ => one "Left" .int) fun _ => [],
      generic "Left" (one "Root") fun _ => [],
      generic "Right" (one "Root") fun _ => [],
      generic "Both" (one "Left") fun t => [one "Right" t, one "Both" .int]]⟩
  limit := 16

end Sample

theorem supertypes_breadthFirst_diamond :
    Sample.diamond.FinitelyAbove (Sample.one "Both" .string) ∧
    Sample.diamond.supertypes (Sample.one "Both" .string) =
      [Sample.one "Both" .string, Sample.one "Left" .string, Sample.one "Right" .string,
        Sample.one "Both" .int, Sample.one "Root" .string, Sample.one "Left" .int,
        Sample.one "Right" .int, Sample.one "Root" .int, .object] ∧
    ∃ bound, ∀ limit, bound ≤ limit → Sample.diamond.BreadthFirst (Sample.one "Both" .string)
      ((Sample.diamond.withLimit limit).supertypes (Sample.one "Both" .string)) := by
  have hfinite : Sample.diamond.FinitelyAbove (Sample.one "Both" .string) :=
    finitelyAbove_iff.mpr ⟨16, _, rfl⟩
  exact ⟨hfinite, rfl, supertypes_breadthFirst hfinite⟩

end TypeSystem

end Introspect

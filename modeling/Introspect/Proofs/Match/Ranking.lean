import Introspect.Match.Ranking
import Introspect.Proofs.Match.Purity

/-!
What a matcher answers for targets: one result for each rule and candidate that match them, by
priority and then by the places of rule and candidate. Equal targets have equal answers, and equal
results merge to equal ones.
-/

namespace Introspect

/-! ### Stable sorting -/

section

variable {α β : Type}

/-- Sorting keeps elements of one rank in the order that they had. -/
theorem pairwise_mergeSort_stable {le : α → α → Bool} {lt : α → α → Prop}
    (trans : ∀ a b c, le a b = true → le b c = true → le a c = true)
    (total : ∀ a b, (le a b || le b a) = true) {l : List α} (h : l.Pairwise lt) :
    (l.mergeSort le).Pairwise fun a b => le a b = true ∧ (le b a = true → lt a b) := by
  have hsorted := List.pairwise_mergeSort (List.zipIdxLE_trans trans) (List.zipIdxLE_total total)
    l.zipIdx
  have hperm := List.mergeSort_perm l.zipIdx (List.zipIdxLE le)
  have hdistinct : (l.zipIdx.mergeSort (List.zipIdxLE le)).Pairwise fun x y => x.2 ≠ y.2 := by
    have hnodup : (l.zipIdx.map Prod.snd).Nodup := by
      rw [List.zipIdx_map_snd]
      exact List.nodup_range'
    exact List.pairwise_map.mp ((hperm.map Prod.snd).nodup_iff.mpr hnodup)
  rw [← List.mergeSort_zipIdx, List.pairwise_map]
  refine (hsorted.and hdistinct).imp_of_mem fun {x y} hx hy hxy => ?_
  obtain ⟨a, i⟩ := x
  obtain ⟨b, j⟩ := y
  have hi : l[i]? = some a := List.mem_zipIdx_iff_getElem?.mp (hperm.mem_iff.mp hx)
  have hj : l[j]? = some b := List.mem_zipIdx_iff_getElem?.mp (hperm.mem_iff.mp hy)
  obtain ⟨hle, hne⟩ := hxy
  simp only [List.zipIdxLE, Bool.if_false_right, Bool.and_eq_true, decide_eq_true_eq] at hle
  -- Elements of one rank are sorted by the places that they had.
  refine ⟨hle.1, fun hba => ?_⟩
  have hij : i ≤ j := by simpa [hba] using hle.2
  obtain ⟨hi', rfl⟩ := List.getElem?_eq_some_iff.mp hi
  obtain ⟨hj', rfl⟩ := List.getElem?_eq_some_iff.mp hj
  exact List.pairwise_iff_getElem.mp h i j hi' hj' (Nat.lt_of_le_of_ne hij hne)

theorem rel_mergeSort {R : α → β → Prop} {le : α → α → Bool} {le' : β → β → Bool}
    (hle : ∀ a b a' b', R a a' → R b b' → le a b = le' a' b') {as : List α} {bs : List β}
    (h : List.Forall₂ R as bs) : List.Forall₂ R (as.mergeSort le) (bs.mergeSort le') := by
  obtain ⟨hlen, hpairs⟩ := List.forall₂_iff_zip.mp h
  -- Both are the two sides of one list of pairs, sorted by either.
  have hleft := List.map_mergeSort (r := fun x y => le x.1 y.1) (s := le) (f := Prod.fst)
    (l := as.zip bs) fun _ _ _ _ => rfl
  have hright := List.map_mergeSort (r := fun x y => le x.1 y.1) (s := le') (f := Prod.snd)
    (l := as.zip bs) fun x hx y hy => hle _ _ _ _ (hpairs hx) (hpairs hy)
  rw [List.map_fst_zip hlen.le] at hleft
  rw [List.map_snd_zip hlen.ge] at hright
  rw [← hleft, ← hright, List.forall₂_map_left_iff, List.forall₂_map_right_iff, List.forall₂_same]
  exact fun x hx => hpairs (List.mem_mergeSort.mp hx)

end

/-! ### Answers -/

/-- Where a rule and a candidate stand in their lists. -/
structure MatchPlace where
  rule : Nat
  candidate : Nat

/-- Rules go first, then candidates. -/
def MatchPlace.Before (p q : MatchPlace) : Prop :=
  p.rule < q.rule ∨ p.rule = q.rule ∧ p.candidate < q.candidate

/-- The rule and the candidate at a place match the targets and give a type. -/
structure Fits (ts : TypeSystem) (rules : List MatchRule) (candidates : List Candidate)
    (targets : List Ty) (p : MatchPlace) (rule : MatchRule) (c : Candidate) (t : Ty) : Prop where
  ruleAt : rules[p.rule]? = some rule
  candidateAt : candidates[p.candidate]? = some c
  arity : c.arity = targets.length
  canMatch : rule.canMatch ts c targets = true
  resolve : rule.resolve ts c targets = .ok t

/-- One result for each place that fits, by descending priority and then by place. -/
structure Placed (ts : TypeSystem) (rules : List MatchRule) (candidates : List Candidate)
    (targets : List Ty) (placed : List (MatchPlace × MatchResult)) : Prop where
  sound : ∀ p r, (p, r) ∈ placed → ∃ rule t, Fits ts rules candidates targets p rule r.candidate t ∧
    r.rule = rule.name ∧ (r.targets == targets) = true ∧ r.resolved.Same t
  complete : ∀ p rule c t, Fits ts rules candidates targets p rule c t → ∃ r, (p, r) ∈ placed
  order : placed.Pairwise fun x y => y.2.priority < x.2.priority ∨
    y.2.priority = x.2.priority ∧ x.1.Before y.1

/-- Whether results are what rules and candidates give for targets. -/
def Answers (ts : TypeSystem) (rules : List MatchRule) (candidates : List Candidate)
    (targets : List Ty) (results : List MatchResult) : Prop :=
  ∃ placed, placed.map Prod.snd = results ∧ Placed ts rules candidates targets placed

namespace MatchResult

variable {ts : TypeSystem} {rules : List MatchRule} {candidates : List Candidate}
  {targets targets' : List Ty}

/-- What one rule gives for one candidate. -/
def outcome? (ts : TypeSystem) (targets : List Ty) (rule : MatchRule) (c : Candidate) :
    Option MatchResult :=
  if c.arity == targets.length && rule.canMatch ts c targets then
    match rule.resolve ts c targets with
    | .ok resolved => some ⟨c, resolved, targets, rule.name⟩
    | .error _ => none
  else none

theorem found_eq : found ts rules candidates targets =
    rules.flatMap fun rule => candidates.filterMap (outcome? ts targets rule) := rfl

theorem outcome?_eq_some {rule : MatchRule} {c : Candidate} {r : MatchResult} :
    outcome? ts targets rule c = some r ↔ ∃ t, c.arity = targets.length ∧
      rule.canMatch ts c targets = true ∧ rule.resolve ts c targets = .ok t ∧
      r = ⟨c, t, targets, rule.name⟩ := by
  unfold outcome?
  constructor
  · intro h
    split at h
    next hfits =>
      rw [Bool.and_eq_true, beq_iff_eq] at hfits
      split at h
      next t ht =>
        cases h
        exact ⟨t, hfits.1, hfits.2, ht, rfl⟩
      next => cases h
    next => cases h
  · rintro ⟨t, harity, hcan, ht, rfl⟩
    simp only [harity, hcan, ht, BEq.rfl, Bool.and_true, if_true]

/-- The results in the order in which they are found, with their places. -/
def located (ts : TypeSystem) (rules : List MatchRule) (candidates : List Candidate)
    (targets : List Ty) : List (MatchPlace × MatchResult) :=
  rules.zipIdx.flatMap fun (rule, i) => candidates.zipIdx.filterMap fun (c, j) =>
    (outcome? ts targets rule c).map (⟨i, j⟩, ·)

theorem map_snd_located :
    (located ts rules candidates targets).map Prod.snd = found ts rules candidates targets := by
  have hrow : ∀ (rule : MatchRule) (i : Nat), (candidates.zipIdx.filterMap fun (c, j) =>
      (outcome? ts targets rule c).map ((⟨i, j⟩ : MatchPlace), ·)).map Prod.snd =
        candidates.filterMap (outcome? ts targets rule) := by
    intro rule i
    conv_rhs => rw [← List.zipIdx_map_fst 0 candidates]
    rw [List.map_filterMap, List.filterMap_map]
    refine List.filterMap_congr fun x _ => ?_
    rw [Option.map_map]
    exact Option.map_id'
  rw [located, List.map_flatMap, found_eq]
  conv_rhs => rw [← List.zipIdx_map_fst 0 rules, List.flatMap_map]
  simp only [hrow]

theorem mem_located {p : MatchPlace} {r : MatchResult} :
    (p, r) ∈ located ts rules candidates targets ↔ ∃ rule c, rules[p.rule]? = some rule ∧
      candidates[p.candidate]? = some c ∧ outcome? ts targets rule c = some r := by
  simp only [located, List.mem_flatMap, List.mem_filterMap, Option.map_eq_some_iff, Prod.exists,
    List.mem_zipIdx_iff_getElem?]
  constructor
  · rintro ⟨rule, i, hrule, c, j, hc, r', hr, hp⟩
    cases hp
    exact ⟨rule, c, hrule, hc, hr⟩
  · rintro ⟨rule, c, hrule, hc, hr⟩
    exact ⟨rule, p.rule, hrule, c, p.candidate, hc, r, hr, rfl⟩

theorem pairwise_located :
    (located ts rules candidates targets).Pairwise fun x y => x.1.Before y.1 := by
  have hzip : ∀ {α : Type} (l : List α), l.zipIdx.Pairwise fun x y => x.2 < y.2 := by
    intro α l
    rw [← List.pairwise_map (f := Prod.snd) (R := (· < ·)), List.zipIdx_map_snd]
    exact List.pairwise_lt_range'
  rw [located, List.pairwise_flatMap]
  refine ⟨fun x _ => ?_, (hzip rules).imp fun {x y} hxy => ?_⟩
  · rw [List.pairwise_filterMap]
    refine (hzip candidates).imp fun {y z} hyz p hp q hq => ?_
    obtain ⟨_, -, rfl⟩ := Option.map_eq_some_iff.mp hp
    obtain ⟨_, -, rfl⟩ := Option.map_eq_some_iff.mp hq
    exact .inr ⟨rfl, hyz⟩
  · intro p hp q hq
    obtain ⟨_, -, hp⟩ := List.mem_filterMap.mp hp
    obtain ⟨_, -, hq⟩ := List.mem_filterMap.mp hq
    obtain ⟨_, -, rfl⟩ := Option.map_eq_some_iff.mp hp
    obtain ⟨_, -, rfl⟩ := Option.map_eq_some_iff.mp hq
    exact .inl hxy

/-! ### The order -/

theorem priority_trans (a b c : MatchResult) (hab : decide (b.priority ≤ a.priority) = true)
    (hbc : decide (c.priority ≤ b.priority) = true) : decide (c.priority ≤ a.priority) = true := by
  rw [decide_eq_true_eq] at hab hbc ⊢
  exact hbc.trans hab

theorem priority_total (a b : MatchResult) :
    (decide (b.priority ≤ a.priority) || decide (a.priority ≤ b.priority)) = true := by
  rw [Bool.or_eq_true, decide_eq_true_eq, decide_eq_true_eq]
  exact le_total b.priority a.priority

/-- What is found and ranked answers the targets. -/
theorem answers_ranked_found :
    Answers ts rules candidates targets (ranked (found ts rules candidates targets)) := by
  refine ⟨(located ts rules candidates targets).mergeSort
    fun x y => decide (y.2.priority ≤ x.2.priority), ?_, ?_, ?_, ?_⟩
  · rw [ranked, ← map_snd_located]
    exact List.map_mergeSort fun _ _ _ _ => rfl
  · intro p r hr
    obtain ⟨rule, c, hrule, hc, hr⟩ := mem_located.mp (List.mem_mergeSort.mp hr)
    obtain ⟨t, harity, hcan, ht, rfl⟩ := outcome?_eq_some.mp hr
    exact ⟨rule, t, ⟨hrule, hc, harity, hcan, ht⟩, rfl, BEq.rfl, BEq.rfl⟩
  · intro p rule c t h
    refine ⟨⟨c, t, targets, rule.name⟩, List.mem_mergeSort.mpr (mem_located.mpr ?_)⟩
    exact ⟨rule, c, h.ruleAt, h.candidateAt,
      outcome?_eq_some.mpr ⟨t, h.arity, h.canMatch, h.resolve, rfl⟩⟩
  · refine (pairwise_mergeSort_stable (fun x y z => priority_trans x.2 y.2 z.2)
      (fun x y => priority_total x.2 y.2) pairwise_located).imp fun {x y} hxy => ?_
    simp only [decide_eq_true_eq] at hxy
    rcases lt_or_eq_of_le hxy.1 with hlt | heq
    · exact .inl hlt
    · exact .inr ⟨heq, hxy.2 heq.ge⟩

/-! ### Spellings -/

/-- Whether two results are for the same candidate by the same rule, with equal types. -/
structure Same (r s : MatchResult) : Prop where
  candidate : r.candidate = s.candidate
  resolved : r.resolved.Same s.resolved
  targets : (r.targets == s.targets) = true
  rule : r.rule = s.rule

theorem outcome?_congr {rule : MatchRule} (hrule : rule.IsPure ts)
    (h : (targets == targets') = true) (c : Candidate) :
    Option.Rel Same (outcome? ts targets rule c) (outcome? ts targets' rule c) := by
  have hlen := (Ty.beq_iff_forall₂.mp h).length_eq
  unfold outcome?
  rw [hlen, hrule.canMatch c targets targets' h]
  split
  · cases ht : rule.resolve ts c targets with
    | ok t =>
      obtain ⟨u, hu, htu⟩ := hrule.resolve c targets targets' t h ht
      rw [hu]
      exact .some ⟨rfl, htu, h, rfl⟩
    | error e =>
      cases hu : rule.resolve ts c targets' with
      | ok u =>
        obtain ⟨t, ht', -⟩ := hrule.resolve c targets' targets u (BEq.symm h) hu
        rw [ht] at ht'
        cases ht'
      | error e' => exact .none
  · exact .none

theorem found_congr (hrules : ∀ rule ∈ rules, rule.IsPure ts) (h : (targets == targets') = true) :
    List.Forall₂ Same (found ts rules candidates targets)
      (found ts rules candidates targets') := by
  rw [found_eq, found_eq]
  refine List.rel_flatMap (R := fun rule rule' => rule = rule' ∧ rule.IsPure ts)
    (List.forall₂_same.mpr fun rule hrule => ⟨rfl, hrules rule hrule⟩) ?_
  rintro rule _ ⟨rfl, hrule⟩
  refine List.rel_filterMap (R := (· = ·)) ?_ (List.forall₂_same.mpr fun _ _ => rfl)
  rintro c _ rfl
  exact outcome?_congr hrule h c

theorem ranked_congr {rs ss : List MatchResult} (h : List.Forall₂ Same rs ss) :
    List.Forall₂ Same (ranked rs) (ranked ss) := by
  refine rel_mergeSort (fun a b a' b' ha hb => ?_) h
  rw [priority, priority, priority, priority, ha.candidate, hb.candidate]

theorem distinct_congr {kept kept' rs ss : List MatchResult} (hkept : List.Forall₂ Same kept kept')
    (h : List.Forall₂ Same rs ss) : List.Forall₂ Same (distinct kept rs) (distinct kept' ss) := by
  induction h generalizing kept kept' with
  | nil => exact .nil
  | @cons r s rs ss hrs _ ih =>
    have hkey : ∀ a b, Same a b → hasKeyOf r a = hasKeyOf s b := by
      intro a b hab
      have hbeq : (r.resolved == a.resolved) = (s.resolved == b.resolved) :=
        (BEq.congr_left hrs.resolved).trans (BEq.congr_right hab.resolved)
      rw [hasKeyOf, hasKeyOf, hrs.candidate, hab.candidate, hbeq]
    have hany : kept.any (hasKeyOf r) = kept'.any (hasKeyOf s) := by
      rw [List.any_eq_not_all_not, List.any_eq_not_all_not,
        all_congr hkept fun a b hab => congrArg (!·) (hkey a b hab)]
    simp only [distinct, hany]
    split
    · exact ih hkept
    · exact .cons hrs (ih (.cons hrs hkept))

theorem merge_congr {arrays arrays' : List (List MatchResult)}
    (h : List.Forall₂ (List.Forall₂ Same) arrays arrays') :
    List.Forall₂ Same (merge arrays) (merge arrays') :=
  distinct_congr .nil (ranked_congr (List.rel_flatten h))

end MatchResult

/-- An answer for targets is one for equal targets too. -/
theorem Answers.of_beq {ts : TypeSystem} {rules : List MatchRule} {candidates : List Candidate}
    {targets targets' : List Ty} {results : List MatchResult}
    (hrules : ∀ rule ∈ rules, rule.IsPure ts) (h : (targets == targets') = true)
    (hanswers : Answers ts rules candidates targets results) :
    Answers ts rules candidates targets' results := by
  have hlen := (Ty.beq_iff_forall₂.mp h).length_eq
  obtain ⟨placed, hplaced, hsound, hcomplete, horder⟩ := hanswers
  refine ⟨placed, hplaced, fun p r hr => ?_, fun p rule c t hfits => ?_, horder⟩
  · obtain ⟨rule, t, hfits, hname, htargets, hresolved⟩ := hsound p r hr
    have hrule := hrules rule (List.mem_of_getElem? hfits.ruleAt)
    obtain ⟨u, hu, htu⟩ := hrule.resolve r.candidate targets targets' t h hfits.resolve
    refine ⟨rule, u, ⟨hfits.ruleAt, hfits.candidateAt, hfits.arity.trans hlen, ?_, hu⟩, hname,
      BEq.trans htargets h, BEq.trans hresolved htu⟩
    rw [← hrule.canMatch r.candidate targets targets' h]
    exact hfits.canMatch
  · have hrule := hrules rule (List.mem_of_getElem? hfits.ruleAt)
    obtain ⟨u, hu, -⟩ := hrule.resolve c targets' targets t (BEq.symm h) hfits.resolve
    have harity : c.arity = targets.length := hfits.arity.trans hlen.symm
    refine hcomplete p rule c u ⟨hfits.ruleAt, hfits.candidateAt, harity, ?_, hu⟩
    rw [hrule.canMatch c targets targets' h]
    exact hfits.canMatch

/-! ### Rules that exclude each other -/

/-- Whether two rules never apply to the same candidate. -/
def MatchRule.Excludes (ts : TypeSystem) (rule other : MatchRule) : Prop :=
  ∀ c targets, rule.canMatch ts c targets = true → other.canMatch ts c targets = false

namespace MatchRule

variable {ts : TypeSystem}

/-- One rule is for closed candidates, the others are for open ones. -/
theorem exact_excludes {other : MatchRule}
    (h : other = genericConstraint ∨ other = nestedDecomposition) : exact.Excludes ts other := by
  intro c targets hcan
  have hclosed : c.isOpen = false := by
    simpa using (Bool.and_eq_true _ _ ▸ hcan : (!c.isOpen) = true ∧ _).1
  obtain rfl | rfl := h
  · simp only [genericConstraint, hclosed, Bool.false_and]
  · simp only [nestedDecomposition, hclosed, Bool.false_and]
    split <;> rfl

/-- A single slot is closed or a bare parameter for one rule, and neither for the other. -/
theorem genericConstraint_excludes : genericConstraint.Excludes ts nestedDecomposition := by
  intro c targets hcan
  simp only [nestedDecomposition]
  split
  next slot target hslots =>
    simp only [genericConstraint, hslots, List.zip_cons_cons, List.zip_nil_right, List.all_cons,
      List.all_nil, Bool.and_true, Bool.and_eq_true, Bool.or_eq_true, Bool.not_eq_true'] at hcan
    rcases hcan.2 with hown | hclosed
    · obtain ⟨i, hi⟩ := Option.isSome_iff_exists.mp hown
      simp [hi]
    · simp [hclosed.1]
  next => rfl

theorem pairwise_excludes_defaults (ts : TypeSystem) : defaults.Pairwise (Excludes ts) := by
  refine .cons (fun other hother => exact_excludes ?_) (.cons (fun other hother => ?_)
    (List.pairwise_singleton _ _))
  · simpa using hother
  · obtain rfl := List.mem_singleton.mp hother
    exact genericConstraint_excludes

end MatchRule

/-- Rules that exclude each other find no candidate twice. -/
theorem MatchResult.nodup_ranked_found {ts : TypeSystem} {rules : List MatchRule}
    {candidates : List Candidate} (hrules : rules.Pairwise (MatchRule.Excludes ts))
    (hids : (candidates.map Candidate.id).Nodup) (targets : List Ty) :
    ((ranked (found ts rules candidates targets)).map (·.candidate.id)).Nodup := by
  have hperm := (List.mergeSort_perm (found ts rules candidates targets)
    fun a b => decide (b.priority ≤ a.priority)).map (·.candidate.id)
  refine hperm.nodup_iff.mpr ?_
  rw [List.Nodup, List.pairwise_map, found_eq, List.pairwise_flatMap]
  refine ⟨fun rule _ => ?_, hrules.imp fun {rule other} hexcludes => ?_⟩
  · rw [List.pairwise_filterMap]
    refine (List.pairwise_map.mp hids).imp fun {c d} hcd r hr s hs => ?_
    obtain ⟨_, -, -, -, rfl⟩ := outcome?_eq_some.mp hr
    obtain ⟨_, -, -, -, rfl⟩ := outcome?_eq_some.mp hs
    exact hcd
  · -- Two rules would have found one candidate, by the identifiers.
    intro r hr s hs hid
    obtain ⟨c, hc, hr⟩ := List.mem_filterMap.mp hr
    obtain ⟨d, hd, hs⟩ := List.mem_filterMap.mp hs
    obtain ⟨_, -, hcan, -, rfl⟩ := outcome?_eq_some.mp hr
    obtain ⟨_, -, hcan', -, rfl⟩ := outcome?_eq_some.mp hs
    have hsame : c = d := List.inj_on_of_nodup_map hids hc hd hid
    rw [← hsame, hexcludes c targets hcan] at hcan'
    cases hcan'

end Introspect

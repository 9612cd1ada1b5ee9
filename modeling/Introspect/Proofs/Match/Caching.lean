import Introspect.Match.Session
import Introspect.Proofs.Ty.Substitution
import Mathlib.Data.List.Perm.Subperm
import Mathlib.Data.Set.Function

/-!
The caches of a matcher. Arrays go by their addresses, and an address may go to another array once
nobody uses the first one. So a merge is found again for the same arrays alone because the cache
keeps them in use. What a cache holds is what would be computed now for equal targets, or what
merging the same arrays would give, since every change of rules or candidates empties it.
-/

namespace Introspect

theorem firstFree_not_mem (used : List Address) : firstFree used ∉ used := by
  rw [firstFree]
  cases hfound : (List.range (used.length + 1)).find? fun a => !used.contains a with
  | some a => simpa using List.find?_some hfound
  | none =>
    -- There are more addresses to try than there are in use.
    have hall : List.range (used.length + 1) ⊆ used := fun a ha => by
      simpa using List.find?_eq_none.mp hfound a ha
    have hlength := (List.subperm_of_subset List.nodup_range hall).length_le
    rw [List.length_range] at hlength
    exact absurd hlength (Nat.not_succ_le_self _)

/-- Whether an array is told apart by its address from all others. -/
abbrev Apart (arrays : List MatchResults) : Prop := Set.InjOn Shared.address {a | a ∈ arrays}

theorem Apart.subset {arrays rest : List MatchResults} (h : Apart arrays) (hrest : rest ⊆ arrays) :
    Apart rest :=
  Set.InjOn.mono hrest h

/-- A new array at a free address is told apart from those in use. -/
theorem Apart.cons {arrays : List MatchResults} (h : Apart arrays) {a : MatchResults}
    (ha : a.address ∉ arrays.map (·.address)) : Apart (a :: arrays) := by
  intro b hb c hc hbc
  rcases List.mem_cons.mp hb with rfl | hbold <;> rcases List.mem_cons.mp hc with rfl | hcold
  · rfl
  · exact absurd (hbc ▸ List.mem_map_of_mem hcold) ha
  · exact absurd (hbc ▸ List.mem_map_of_mem hbold) ha
  · exact h hbold hcold hbc

/-- As long as all of them are in use, only the arrays that were merged pass for them. -/
theorem CachedMerge.eq_of_isOf {live inputs : List MatchResults} {kept : CachedMerge}
    (hlive : Apart live) (hkept : kept.inputs ⊆ live) (hinputs : inputs ⊆ live)
    (h : kept.isOf inputs = true) : kept.inputs = inputs := by
  obtain ⟨hlength, hall⟩ := Bool.and_eq_true_iff.mp h
  refine List.ext_getElem (eq_of_beq hlength) fun i hi hi' => ?_
  have hpair : (kept.inputs[i], inputs[i]) ∈ kept.inputs.zip inputs := by
    rw [List.mem_iff_getElem]
    exact ⟨i, by simpa using ⟨hi, hi'⟩, List.getElem_zip⟩
  exact hlive (hkept (List.getElem_mem hi)) (hinputs (List.getElem_mem hi'))
    (eq_of_beq (List.all_eq_true.mp hall _ hpair))

/-! ### Arrays in use -/

theorem length_filter_bne {α : Type} (p : α → Bool) (l : List α) :
    ((l.filter p).length != l.length) = l.any fun a => !p a := by
  rw [Bool.eq_iff_iff, bne_iff_ne, Ne, List.length_filter_eq_length_iff, List.any_eq_true]
  simp

namespace Matcher

variable {m : Matcher} {a : MatchResults}

theorem mem_keptArrays : a ∈ m.keptArrays ↔ (∃ e ∈ m.tuples.entries, e.2.results = a) ∨
    ∃ e ∈ m.merges.entries, a ∈ e.2.merged :: e.2.inputs := by
  rw [keptArrays, List.mem_append, List.mem_map, List.mem_flatMap]

theorem keptArrays_insert_tuples {targets : List Ty} {kept : CachedMatches} :
    { m with tuples := m.tuples.insert targets kept }.keptArrays ⊆
      kept.results :: m.keptArrays := by
  intro a ha
  rcases mem_keptArrays.mp ha with ⟨e, he, rfl⟩ | hmerge
  · refine Assoc.forall_mem_set (p := fun k => k.results ∈ kept.results :: m.keptArrays)
      (fun e he => ?_) List.mem_cons_self e he
    exact List.mem_cons_of_mem _ (mem_keptArrays.mpr (.inl ⟨e, he, rfl⟩))
  · exact List.mem_cons_of_mem _ (mem_keptArrays.mpr (.inr hmerge))

theorem keptArrays_insert_merges {key : List Address} {kept : CachedMerge} :
    { m with merges := m.merges.insert key kept }.keptArrays ⊆
      kept.merged :: (kept.inputs ++ m.keptArrays) := by
  intro a ha
  rcases mem_keptArrays.mp ha with htuple | ⟨e, he, hae⟩
  · have hold : a ∈ m.keptArrays := mem_keptArrays.mpr (.inl htuple)
    exact List.mem_cons_of_mem _ (List.mem_append_right _ hold)
  · refine Assoc.forall_mem_set
      (p := fun k => k.merged :: k.inputs ⊆ kept.merged :: (kept.inputs ++ m.keptArrays))
      (fun e he b hb => ?_) ?_ e he hae
    · have hold : b ∈ m.keptArrays := mem_keptArrays.mpr (.inr ⟨e, he, hb⟩)
      exact List.mem_cons_of_mem _ (List.mem_append_right _ hold)
    · exact List.cons_subset_cons _ (List.subset_append_left _ _)

/-! ### What a call does -/

theorem answer_mutate (m : Matcher) (reactions : Reactions) (event : MatcherEvent)
    (hasEffect : Bool) : (m.mutate reactions event hasEffect).answer = hasEffect := by
  cases hasEffect <;> rfl

theorem unregister_eq_mutate (m : Matcher) (reactions : Reactions) (id : CandidateId) :
    m.unregister reactions id =
      { m with candidates := m.candidates.filter fun c => c.id != id }.mutate reactions
        (.unregistered id) (m.candidates.any fun c => c.id == id) := by
  have hany : (m.candidates.any fun c => !(c.id != id)) = m.candidates.any fun c => c.id == id := by
    simp only [bne, Bool.not_not]
  simp only [unregister, length_filter_bne, hany]

/-- A name is looked for before, and if no rule has it there is nothing to remove. -/
theorem removeRule_eq_mutate (m : Matcher) (reactions : Reactions) (name : String) :
    m.removeRule reactions name =
      { m with rules := m.rules.filter fun r => r.name != name }.mutate reactions
        (.ruleRemoved name) (m.ruleNames.contains name) := by
  have hany : (m.rules.any fun r => !(r.name != name)) = m.ruleNames.contains name := by
    rw [ruleNames, Bool.eq_iff_iff, List.contains_iff_mem, List.mem_map, List.any_eq_true]
    simp only [bne, Bool.not_not, beq_iff_eq]
  simp only [removeRule, length_filter_bne, hany]
  split
  next hsome => rw [hsome]
  next hnone =>
    have hall : (m.rules.filter fun r => r.name != name) = m.rules := by
      refine List.filter_eq_self.mpr fun r hr => bne_iff_ne.mpr fun hname => hnone ?_
      exact List.contains_iff_mem.mpr (List.mem_map.mpr ⟨r, hr, hname⟩)
    rw [Bool.eq_false_iff.mpr hnone, hall]
    rfl

/-- Matches are those that are kept, or they are computed and perhaps kept from now on. -/
theorem getMatches_cases (m : Matcher) (ts : TypeSystem) (fresh : Address) (targets : List Ty) :
    (∃ kept, m.tuples.find? targets = some kept ∧ kept.epoch = m.epoch ∧
      m.getMatches ts fresh targets = (kept.results, m)) ∨
    ∃ tuples, (tuples = m.tuples ∨
        tuples = m.tuples.insert targets ⟨m.epoch, ⟨fresh, m.compute ts targets⟩⟩) ∧
      m.getMatches ts fresh targets =
        (⟨fresh, m.compute ts targets⟩, { m with tuples := tuples }) := by
  unfold getMatches
  split
  · split
    next hit hhit =>
      obtain ⟨hfound, hepoch⟩ := Option.filter_eq_some_iff.mp hhit
      exact .inl ⟨hit, hfound, eq_of_beq hepoch, rfl⟩
    next => exact .inr ⟨_, .inr rfl, rfl⟩
  · exact .inr ⟨_, .inl rfl, rfl⟩

/-- A merge is one that is kept of the same arrays, or it is made and perhaps kept from now on. -/
theorem merge_cases (m : Matcher) (fresh : Address) (inputs : List MatchResults) :
    (∃ key kept, m.merges.find? key = some kept ∧ kept.epoch = m.epoch ∧
      kept.isOf inputs = true ∧ m.merge fresh inputs = (kept.merged, m)) ∨
    ∃ merged merges, merged = ⟨fresh, MatchResult.merge (inputs.map (·.value))⟩ ∧
      (merges = m.merges ∨
        merges = m.merges.insert (inputs.map (·.address)) ⟨m.epoch, inputs, merged⟩) ∧
      m.merge fresh inputs = (merged, { m with merges := merges }) := by
  unfold merge
  split
  · dsimp only
    split
    next hit hhit =>
      obtain ⟨hfound, hvalid⟩ := Option.filter_eq_some_iff.mp hhit
      obtain ⟨hepoch, hinputs⟩ := Bool.and_eq_true_iff.mp hvalid
      exact .inl ⟨_, hit, hfound, eq_of_beq hepoch, hinputs, rfl⟩
    next => exact .inr ⟨_, _, rfl, .inr rfl, rfl⟩
  · exact .inr ⟨_, _, rfl, .inl rfl, rfl⟩

end Matcher

namespace MatcherSession

variable {s : MatcherSession} {a : MatchResults}

theorem mem_live : a ∈ s.live ↔ some a ∈ s.arrays ∨ a ∈ s.matcher.keptArrays := by
  rw [live, List.mem_append]
  simp

theorem live_subset {arrays : List MatchResults} (hheld : ∀ a, some a ∈ s.arrays → a ∈ arrays)
    (hkept : s.matcher.keptArrays ⊆ arrays) : s.live ⊆ arrays := fun a ha =>
  (mem_live.mp ha).elim (hheld a) fun hcache => hkept hcache

theorem mem_live_of_held (ha : some a ∈ s.arrays) : a ∈ s.live := mem_live.mpr (.inl ha)

theorem fresh_not_mem (s : MatcherSession) (around : Surroundings) :
    s.fresh around ∉ s.live.map (·.address) :=
  around.place_not_mem _

theorem pick_subset_live (s : MatcherSession) (turns : List Nat) : s.pick turns ⊆ s.live := by
  intro a ha
  obtain ⟨turn, -, hturn⟩ := List.mem_filterMap.mp ha
  exact mem_live_of_held (List.mem_of_getElem? (Option.join_eq_some_iff.mp hturn))

theorem keptArrays_subset_live (s : MatcherSession) : s.matcher.keptArrays ⊆ s.live :=
  List.subset_append_right _ _

/-- Arrays stay apart if one of them is handed out, or a new one at a free address, and the caches
keep no others. -/
theorem apart_handOut (h : Apart s.live) {out : MatchResults × Matcher}
    (hout : out.1 ∈ s.live ∨ out.1.address ∉ s.live.map (·.address))
    (hkept : out.2.keptArrays ⊆ out.1 :: s.live) : Apart (s.handOut out).2.live := by
  have hlive : (s.handOut out).2.live ⊆ out.1 :: s.live := by
    refine live_subset (fun a ha => ?_) hkept
    rcases List.mem_append.mp ha with hold | hnew
    · exact List.mem_cons_of_mem _ (mem_live_of_held hold)
    · obtain rfl := Option.some.inj (List.mem_singleton.mp hnew)
      exact List.mem_cons_self
  rcases hout with hold | hnew
  · exact h.subset (List.Subset.trans hlive (List.cons_subset.mpr ⟨hold, List.Subset.refl _⟩))
  · exact (h.cons hnew).subset hlive

end MatcherSession

/-! ### What the caches hold -/

namespace Matcher

/-- Whether the caches have for targets what equal targets give now, and for arrays what merging
them gives. -/
structure Sound (ts : TypeSystem) (m : Matcher) : Prop where
  tuples : ∀ targets kept, m.tuples.find? targets = some kept →
    ∃ targets', (targets' == targets) = true ∧ kept.results.value = m.compute ts targets'
  merges : ∀ key kept, m.merges.find? key = some kept →
    kept.merged.value = MatchResult.merge (kept.inputs.map (·.value))

namespace Sound

variable {ts : TypeSystem} {m : Matcher}

/-- After a change nothing is in the caches, and without one all is as before. -/
theorem mutate (h : m.Sound ts) {changed : Matcher} {hasEffect : Bool}
    (hsame : hasEffect = false → changed = m) (reactions : Reactions) (event : MatcherEvent) :
    (changed.mutate reactions event hasEffect).matcher.Sound ts := by
  cases hasEffect with
  | false =>
    obtain rfl := hsame rfl
    exact h
  | true => exact ⟨nofun, nofun⟩

theorem getMatches (h : m.Sound ts) (fresh : Address) (targets : List Ty) :
    (m.getMatches ts fresh targets).2.Sound ts ∧
      ∃ targets', (targets' == targets) = true ∧
        (m.getMatches ts fresh targets).1.value = m.compute ts targets' := by
  rcases m.getMatches_cases ts fresh targets with
    ⟨kept, hfound, -, heq⟩ | ⟨tuples, rfl | rfl, heq⟩
  · rw [heq]
    exact ⟨h, h.tuples targets kept hfound⟩
  · rw [heq]
    exact ⟨h, targets, BEq.rfl, rfl⟩
  · rw [heq]
    refine ⟨⟨fun targets' kept hkept => ?_, h.merges⟩, targets, BEq.rfl, rfl⟩
    simp only [KeyedMap.find?_insert] at hkept
    split at hkept
    next hequal =>
      cases hkept
      exact ⟨targets, hequal, rfl⟩
    next => exact h.tuples targets' kept hkept

theorem merge (h : m.Sound ts) (fresh : Address) (inputs : List MatchResults) :
    (m.merge fresh inputs).2.Sound ts := by
  rcases m.merge_cases fresh inputs with
    ⟨_, _, -, -, -, heq⟩ | ⟨merged, merges, rfl, rfl | rfl, heq⟩
  · rw [heq]
    exact h
  · rw [heq]
    exact h
  · rw [heq]
    refine ⟨h.tuples, fun key kept hkept => ?_⟩
    simp only [KeyedMap.find?_insert] at hkept
    split at hkept
    next =>
      cases hkept
      rfl
    next => exact h.merges key kept hkept

end Sound

end Matcher

/-! ### Sessions -/

/-- Whether a session's caches hold what would be computed now, and the arrays in use are told apart
by their addresses. -/
structure Coherent (ts : TypeSystem) (s : MatcherSession) : Prop where
  apart : Apart s.live
  sound : s.matcher.Sound ts

namespace Coherent

open MatcherSession

variable {ts : TypeSystem} {s : MatcherSession}

theorem start (ts : TypeSystem) (rules : List MatchRule) (isCaching : Bool) :
    Coherent ts (.start rules isCaching) := by
  have hlive : (MatcherSession.start rules isCaching).live = [] := rfl
  refine ⟨?_, nofun, nofun⟩
  rw [hlive]
  nofun

theorem settle (h : Coherent ts s) {changed : Matcher} {hasEffect : Bool}
    (hsame : hasEffect = false → changed = s.matcher) (reactions : Reactions)
    (event : MatcherEvent) :
    Coherent ts { s with matcher := (changed.mutate reactions event hasEffect).matcher } := by
  refine ⟨h.apart.subset (live_subset (fun a ha => mem_live_of_held ha) ?_),
    h.sound.mutate hsame reactions event⟩
  cases hasEffect with
  | false =>
    obtain rfl := hsame rfl
    exact s.keptArrays_subset_live
  | true => exact List.nil_subset _

theorem drop (h : Coherent ts s) (turn : Nat) :
    Coherent ts { s with arrays := s.arrays.set turn none } := by
  refine ⟨h.apart.subset (live_subset (fun a ha => ?_) s.keptArrays_subset_live), h.sound⟩
  rcases List.mem_or_eq_of_mem_set ha with hheld | hnone
  · exact mem_live_of_held hheld
  · cases hnone

theorem bring (h : Coherent ts s) (around : Surroundings) (results : List MatchResult) :
    Coherent ts (s.handOut (⟨s.fresh around, results⟩, s.matcher)).2 :=
  ⟨apart_handOut h.apart (.inr (s.fresh_not_mem around))
    (List.subset_cons_of_subset _ s.keptArrays_subset_live), h.sound⟩

/-- Matches are what would be computed now for equal targets. -/
theorem getMatches (h : Coherent ts s) (around : Surroundings) (targets : List Ty) :
    Coherent ts (s.handOut (s.matcher.getMatches ts (s.fresh around) targets)).2 := by
  refine ⟨?_, (h.sound.getMatches (s.fresh around) targets).1⟩
  rcases s.matcher.getMatches_cases ts (s.fresh around) targets with
    ⟨kept, hfound, -, heq⟩ | ⟨tuples, htuples, heq⟩
  · rw [heq]
    obtain ⟨e, he, rfl⟩ := Assoc.exists_mem_of_find? hfound
    have hkept : e.2.results ∈ s.live :=
      s.keptArrays_subset_live (Matcher.mem_keptArrays.mpr (.inl ⟨e, he, rfl⟩))
    exact apart_handOut h.apart (.inl hkept)
      (List.subset_cons_of_subset _ s.keptArrays_subset_live)
  · rw [heq]
    refine apart_handOut h.apart (.inr (s.fresh_not_mem around)) ?_
    rcases htuples with rfl | rfl
    · exact List.subset_cons_of_subset _ s.keptArrays_subset_live
    · exact List.Subset.trans Matcher.keptArrays_insert_tuples
        (List.cons_subset_cons _ s.keptArrays_subset_live)

/-- Merging gives the merge of what the arrays hold. -/
theorem merge (h : Coherent ts s) (around : Surroundings) {inputs : List MatchResults}
    (hinputs : inputs ⊆ s.live) :
    Coherent ts (s.handOut (s.matcher.merge (s.fresh around) inputs)).2 ∧
      (s.matcher.merge (s.fresh around) inputs).1.value =
        MatchResult.merge (inputs.map (·.value)) := by
  have hsound := h.sound.merge (s.fresh around) inputs
  rcases s.matcher.merge_cases (s.fresh around) inputs with
    ⟨key, kept, hfound, -, hisOf, heq⟩ | ⟨merged, merges, rfl, hmerges, heq⟩
  · rw [heq]
    obtain ⟨e, he, rfl⟩ := Assoc.exists_mem_of_find? hfound
    have hkept : e.2.merged :: e.2.inputs ⊆ s.live := fun a ha =>
      s.keptArrays_subset_live (Matcher.mem_keptArrays.mpr (.inr ⟨e, he, ha⟩))
    obtain ⟨hmerged, hbefore⟩ := List.cons_subset.mp hkept
    refine ⟨⟨apart_handOut h.apart (.inl hmerged)
      (List.subset_cons_of_subset _ s.keptArrays_subset_live), h.sound⟩, ?_⟩
    -- All of them are in use, so the arrays that were merged are the ones to merge now.
    rw [h.sound.merges key e.2 hfound, CachedMerge.eq_of_isOf h.apart hbefore hinputs hisOf]
  · rw [heq] at hsound ⊢
    refine ⟨⟨apart_handOut h.apart (.inr (s.fresh_not_mem around)) ?_, hsound⟩, rfl⟩
    rcases hmerges with rfl | rfl
    · exact List.subset_cons_of_subset _ s.keptArrays_subset_live
    · exact List.Subset.trans Matcher.keptArrays_insert_merges
        (List.cons_subset_cons _ (List.append_subset.mpr ⟨hinputs, s.keptArrays_subset_live⟩))

/-- An array that is not held after all was in use all the same. -/
theorem of_handOut {out : MatchResults × Matcher} (h : Coherent ts (s.handOut out).2) :
    Coherent ts { s with matcher := out.2 } :=
  ⟨h.apart.subset (live_subset (fun _ ha => mem_live_of_held (List.mem_append_left _ ha))
    (s.handOut out).2.keptArrays_subset_live), h.sound⟩

theorem step (h : Coherent ts s) (around : Surroundings) (call : MatcherCall) :
    Coherent ts (s.step ts around call).2 := by
  cases call with
  | register source constraints priority | addRule rule =>
    refine h.settle ?_ around.reactions _
    nofun
  | unregister id =>
    simp only [MatcherSession.step, Matcher.unregister]
    -- Candidates that are no fewer than before are the same.
    refine h.settle (fun hnone => ?_) around.reactions _
    rw [List.filter_sublist.eq_of_length (bne_eq_false_iff_eq.mp hnone)]
  | removeRule name =>
    simp only [MatcherSession.step, Matcher.removeRule]
    split
    · refine h.settle (fun hnone => ?_) around.reactions _
      rw [List.filter_sublist.eq_of_length (bne_eq_false_iff_eq.mp hnone)]
    · exact h
  | getMatches targets => exact h.getMatches around targets
  | bestMatch targets => exact (h.getMatches around targets).of_handOut
  | merge turns => exact (h.merge around (s.pick_subset_live turns)).1
  | bring results => exact h.bring around results
  | drop turn => exact h.drop turn

theorem run (h : Coherent ts s) (around : Nat → Surroundings) (calls : List MatcherCall) :
    Coherent ts (s.run ts around calls).2 := by
  induction calls generalizing s around with
  | nil => exact h
  | cons call rest ih => exact ih (h.step (around 0) call) _

end Coherent

end Introspect

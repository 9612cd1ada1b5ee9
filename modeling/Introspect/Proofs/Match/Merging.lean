import Introspect.Proofs.Match.MatcherRun

/-!
Merging of results. A merge has one result for each candidate and resolved type: of those with the
highest priority the one that comes first. So it does not matter in which groups arrays are merged,
as long as their order is kept, and a matcher's cache of merges changes nothing.
-/

namespace Introspect

namespace MatchResult

variable {rs ss kept kept' : List MatchResult} {r : MatchResult} {p : Int}

/-! ### Keys -/

theorem hasKeyOf_refl (r : MatchResult) : hasKeyOf r r = true := by
  rw [hasKeyOf, BEq.rfl, BEq.rfl, Bool.and_true]

theorem hasKeyOf_congr {r s : MatchResult} (h : hasKeyOf r s = true) (t : MatchResult) :
    hasKeyOf r t = hasKeyOf s t := by
  obtain ⟨hid, hresolved⟩ := Bool.and_eq_true_iff.mp h
  rw [hasKeyOf, hasKeyOf, eq_of_beq hid, BEq.congr_left hresolved]

/-- Whether a list has every key that another one has. -/
def KeysIn (rs ss : List MatchResult) : Prop :=
  ∀ r, rs.any (hasKeyOf r) = true → ss.any (hasKeyOf r) = true

theorem keysIn_of_subset (h : rs ⊆ ss) : KeysIn rs ss := by
  intro r hr
  obtain ⟨s, hs, hkey⟩ := List.any_eq_true.mp hr
  exact List.any_eq_true.mpr ⟨s, h hs, hkey⟩

/-- A result whose key is there already brings no key. -/
theorem keysIn_cons (hr : kept'.any (hasKeyOf r) = true) (h : KeysIn kept kept') :
    KeysIn (r :: kept) kept' := by
  intro s hs
  rcases Bool.or_eq_true_iff.mp hs with hkey | hs
  · obtain ⟨t, ht, hkeys⟩ := List.any_eq_true.mp hr
    exact List.any_eq_true.mpr ⟨t, ht, (hasKeyOf_congr hkey t).trans hkeys⟩
  · exact h s hs

theorem KeysIn.cons_cons (h : KeysIn kept kept') (r : MatchResult) :
    KeysIn (r :: kept) (r :: kept') := by
  intro s hs
  rcases Bool.or_eq_true_iff.mp hs with hkey | hs
  · exact Bool.or_eq_true_iff.mpr (Or.inl hkey)
  · exact Bool.or_eq_true_iff.mpr (Or.inr (h s hs))

/-! ### The first of each key -/

theorem distinct_of_any (h : kept.any (hasKeyOf r) = true) (rs : List MatchResult) :
    distinct kept (r :: rs) = distinct kept rs := by
  rw [distinct, if_pos h]

theorem distinct_of_not_any (h : ¬kept.any (hasKeyOf r) = true) (rs : List MatchResult) :
    distinct kept (r :: rs) = r :: distinct (r :: kept) rs := by
  rw [distinct, if_neg h]

theorem distinct_sublist (kept rs : List MatchResult) : (distinct kept rs).Sublist rs := by
  induction kept, rs using distinct.induct with
  | case1 kept => exact List.Sublist.refl []
  | case2 kept r rs hr ih =>
    rw [distinct_of_any hr]
    exact ih.cons r
  | case3 kept r rs hr ih =>
    rw [distinct_of_not_any hr]
    exact ih.cons_cons r

/-- Only the keys of what is kept already count. -/
theorem distinct_keys_congr (h : KeysIn kept kept') (h' : KeysIn kept' kept)
    (rs : List MatchResult) : distinct kept rs = distinct kept' rs := by
  induction kept, rs using distinct.induct generalizing kept' with
  | case1 kept => rfl
  | case2 kept r rs hr ih => rw [distinct_of_any hr, distinct_of_any (h r hr), ih h h']
  | case3 kept r rs hr ih =>
    have hr' : ¬kept'.any (hasKeyOf r) = true := fun hany => hr (h' r hany)
    rw [distinct_of_not_any hr, distinct_of_not_any hr', ih (h.cons_cons r) (h'.cons_cons r)]

theorem distinct_append (kept rs ss : List MatchResult) :
    distinct kept (rs ++ ss) = distinct kept rs ++ distinct (rs ++ kept) ss := by
  induction kept, rs using distinct.induct with
  | case1 kept => rfl
  | case2 kept r rs hr ih =>
    rw [List.cons_append, distinct_of_any hr, distinct_of_any hr, ih]
    congr 1
    -- The key of `r` is among those kept before.
    have hkeys : (rs ++ kept).any (hasKeyOf r) = true := by
      rw [List.any_append, hr, Bool.or_true]
    apply distinct_keys_congr
    · exact keysIn_of_subset (List.subset_cons_self r _)
    · exact keysIn_cons hkeys fun _ h => h
  | case3 kept r rs hr ih =>
    rw [List.cons_append, distinct_of_not_any hr, distinct_of_not_any hr, ih, List.cons_append]
    congr 2
    apply distinct_keys_congr
    · exact keysIn_of_subset List.perm_middle.subset
    · exact keysIn_of_subset List.perm_middle.symm.subset

/-- Dropping results beforehand for keys that are dropped anyway makes no difference. -/
theorem distinct_distinct (h : KeysIn kept kept') (rs : List MatchResult) :
    distinct kept' (distinct kept rs) = distinct kept' rs := by
  induction kept, rs using distinct.induct generalizing kept' with
  | case1 kept => rfl
  | case2 kept r rs hr ih => rw [distinct_of_any hr, distinct_of_any (h r hr), ih h]
  | case3 kept r rs hr ih =>
    rw [distinct_of_not_any hr]
    by_cases hr' : kept'.any (hasKeyOf r) = true
    · rw [distinct_of_any hr', distinct_of_any hr', ih (keysIn_cons hr' h)]
    · rw [distinct_of_not_any hr', distinct_of_not_any hr', ih (h.cons_cons r)]

/-- Every key is kept, now or before. -/
theorem keysIn_distinct (kept rs : List MatchResult) : KeysIn rs (distinct kept rs ++ kept) := by
  induction kept, rs using distinct.induct with
  | case1 kept => exact fun _ h => (nomatch h)
  | case2 kept r rs hr ih =>
    rw [distinct_of_any hr]
    refine keysIn_cons ?_ ih
    rw [List.any_append, hr, Bool.or_true]
  | case3 kept r rs hr ih =>
    rw [distinct_of_not_any hr]
    have hmiddle : (distinct (r :: kept) rs ++ r :: kept).Perm
        (r :: (distinct (r :: kept) rs ++ kept)) := List.perm_middle
    intro s hs
    rcases Bool.or_eq_true_iff.mp hs with hkey | hs
    · exact Bool.or_eq_true_iff.mpr (Or.inl hkey)
    · exact keysIn_of_subset hmiddle.subset s (ih s hs)

/-- Taking the first of each key in every group changes nothing for the groups together. -/
theorem distinct_flatMap {α : Type} {groups : List α} {f g : α → List MatchResult}
    (h : ∀ a ∈ groups, ∃ before, KeysIn before kept ∧ g a = distinct before (f a)) :
    distinct kept (groups.flatMap g) = distinct kept (groups.flatMap f) := by
  induction groups generalizing kept with
  | nil => rfl
  | cons a groups ih =>
    rw [List.forall_mem_cons] at h
    obtain ⟨⟨before, hbefore, ha⟩, hrest⟩ := h
    have hkept : KeysIn kept (g a ++ kept) := keysIn_of_subset (List.subset_append_right _ _)
    have hgroups : distinct (g a ++ kept) (groups.flatMap g) =
        distinct (g a ++ kept) (groups.flatMap f) := by
      refine ih fun b hb => ?_
      obtain ⟨before, hbefore, hb⟩ := hrest b hb
      exact ⟨before, fun s hs => hkept s (hbefore s hs), hb⟩
    have hkeys : distinct (g a ++ kept) (groups.flatMap f) =
        distinct (f a ++ kept) (groups.flatMap f) := by
      apply distinct_keys_congr
      · rw [ha]
        exact keysIn_of_subset ((distinct_sublist _ _).append (List.Sublist.refl kept)).subset
      · intro s hs
        rw [List.any_append, Bool.or_eq_true] at hs
        rcases hs with hs | hs
        · have hfound := keysIn_distinct before (f a) s hs
          rw [← ha, List.any_append, Bool.or_eq_true] at hfound
          rcases hfound with hfound | hfound
          · rw [List.any_append, hfound, Bool.true_or]
          · exact hkept s (hbefore s hfound)
        · exact hkept s hs
    rw [List.flatMap_cons, List.flatMap_cons, distinct_append, distinct_append, hgroups, hkeys, ha,
      distinct_distinct hbefore]

/-! ### Results of one priority -/

/-- The results of a priority, in their order. -/
def ofPriority (p : Int) (rs : List MatchResult) : List MatchResult :=
  rs.filter fun r => r.priority = p

def above (p : Int) (rs : List MatchResult) : List MatchResult := rs.filter fun r => p < r.priority

/-- Whether results have descending priorities. -/
def Descending (rs : List MatchResult) : Prop := rs.Pairwise fun a b => b.priority ≤ a.priority

theorem descending_ranked (rs : List MatchResult) : Descending (ranked rs) := by
  apply (List.pairwise_mergeSort priority_trans priority_total rs).imp
  intro a b hab
  exact of_decide_eq_true hab

/-- Ranking keeps the order of the results of one priority. -/
theorem ofPriority_ranked (p : Int) (rs : List MatchResult) :
    ofPriority p (ranked rs) = ofPriority p rs := by
  have hle : (ofPriority p rs).Pairwise fun a b => decide (b.priority ≤ a.priority) = true := by
    apply List.pairwise_of_forall_mem_list
    intro a ha b hb
    have hpa := of_decide_eq_true (List.mem_filter.mp ha).2
    have hpb := of_decide_eq_true (List.mem_filter.mp hb).2
    rw [decide_eq_true_eq, hpa, hpb]
  have hsub : (ofPriority p rs).Sublist (ranked rs) :=
    List.sublist_mergeSort priority_trans priority_total hle List.filter_sublist
  have hperm : (ofPriority p (ranked rs)).Perm (ofPriority p rs) :=
    (List.mergeSort_perm rs _).filter _
  have hboth : (ofPriority p rs).Sublist (ofPriority p (ranked rs)) := by
    have hself : ofPriority p (ofPriority p rs) = ofPriority p rs := by
      rw [ofPriority, List.filter_eq_self]
      exact fun r hr => (List.mem_filter.mp hr).2
    rw [← hself]
    exact hsub.filter _
  exact (hboth.eq_of_length hperm.length_eq.symm).symm

/-- Results in descending order are determined by those of each priority. -/
theorem eq_of_ofPriority (hrs : Descending rs) (hss : Descending ss)
    (h : ∀ p, ofPriority p rs = ofPriority p ss) : rs = ss := by
  induction rs generalizing ss with
  | nil =>
    cases ss with
    | nil => rfl
    | cons s ss =>
      have hs := h s.priority
      simp [ofPriority] at hs
  | cons r rs ih =>
    have hmem : ∀ {t us vs}, (∀ p, ofPriority p us = ofPriority p vs) → t ∈ us → t ∈ vs := by
      intro t us vs huv ht
      have hu : t ∈ ofPriority t.priority us := List.mem_filter.mpr ⟨ht, decide_eq_true rfl⟩
      rw [huv] at hu
      exact List.mem_of_mem_filter hu
    cases ss with
    | nil => exact absurd (hmem h List.mem_cons_self) List.not_mem_nil
    | cons s ss =>
      rw [Descending, List.pairwise_cons] at hrs hss
      -- Either head has the highest priority, so both are the first of that priority.
      have hrs' : r.priority ≤ s.priority := by
        rcases List.mem_cons.mp (hmem h List.mem_cons_self) with rfl | hr
        · exact le_refl _
        · exact hss.1 r hr
      have hsr : s.priority ≤ r.priority := by
        rcases List.mem_cons.mp (hmem (fun p => (h p).symm) List.mem_cons_self) with rfl | hs
        · exact le_refl _
        · exact hrs.1 s hs
      have hpriority : s.priority = r.priority := le_antisymm hsr hrs'
      have hhead := h r.priority
      simp only [ofPriority, List.filter_cons, hpriority, decide_true, if_true,
        List.cons.injEq] at hhead
      obtain ⟨rfl, -⟩ := hhead
      congr 1
      apply ih hrs.2 hss.2
      intro p
      have hp := h p
      simp only [ofPriority, List.filter_cons] at hp
      split at hp
      · exact List.tail_eq_of_cons_eq hp
      · exact hp

/-- Each key has its result of the highest priority kept, if it was not there before. -/
theorem exists_distinct (hrs : Descending rs) (hr : r ∈ rs) :
    kept.any (hasKeyOf r) = true ∨
      ∃ s ∈ distinct kept rs, hasKeyOf r s = true ∧ r.priority ≤ s.priority := by
  induction kept, rs using distinct.induct with
  | case1 kept => cases hr
  | case2 kept t rs ht ih =>
    rw [Descending, List.pairwise_cons] at hrs
    rw [distinct_of_any ht]
    rcases List.mem_cons.mp hr with rfl | hr
    · exact Or.inl ht
    · exact ih hrs.2 hr
  | case3 kept t rs ht ih =>
    rw [Descending, List.pairwise_cons] at hrs
    rw [distinct_of_not_any ht]
    rcases List.mem_cons.mp hr with rfl | hr
    · exact Or.inr ⟨r, List.mem_cons_self, hasKeyOf_refl r, le_refl _⟩
    · rcases ih hrs.2 hr with hkept | ⟨s, hs, hkey, hsle⟩
      · rcases Bool.or_eq_true_iff.mp hkept with hkey | hkept
        · exact Or.inr ⟨t, List.mem_cons_self, hkey, hrs.1 r hr⟩
        · exact Or.inl hkept
      · exact Or.inr ⟨s, List.mem_cons_of_mem t hs, hkey, hsle⟩

/-- In descending order a result of some priority is kept if its key is neither among those of a
higher priority nor among those before it. -/
theorem ofPriority_distinct (p : Int) (hrs : Descending rs) :
    ofPriority p (distinct kept rs) = distinct (above p rs ++ kept) (ofPriority p rs) := by
  induction rs generalizing kept with
  | nil => rfl
  | cons r rs ih =>
    rw [Descending, List.pairwise_cons] at hrs
    rcases lt_trichotomy p r.priority with hp | hp | hp
    · -- The result is not of this priority, but its key is taken for the rest.
      have habove : above p (r :: rs) = r :: above p rs :=
        List.filter_cons_of_pos (decide_eq_true hp)
      have hof : ∀ ss, ofPriority p (r :: ss) = ofPriority p ss := fun ss =>
        List.filter_cons_of_neg (by simpa using hp.ne')
      rw [habove, hof]
      by_cases hr : kept.any (hasKeyOf r) = true
      · rw [distinct_of_any hr, ih hrs.2]
        apply distinct_keys_congr
        · exact keysIn_of_subset (List.subset_cons_self r _)
        · refine keysIn_cons ?_ fun _ h => h
          rw [List.any_append, hr, Bool.or_true]
      · rw [distinct_of_not_any hr, hof, ih hrs.2]
        apply distinct_keys_congr
        · exact keysIn_of_subset List.perm_middle.subset
        · exact keysIn_of_subset List.perm_middle.symm.subset
    · have habove : above p (r :: rs) = [] := by
        rw [above, List.filter_eq_nil_iff, List.forall_mem_cons]
        refine ⟨by simp [hp], fun s hs => ?_⟩
        simpa [hp] using hrs.1 s hs
      have habove' : above p rs = [] :=
        List.filter_eq_nil_iff.mpr fun s hs =>
          List.filter_eq_nil_iff.mp habove s (List.mem_cons_of_mem r hs)
      have hof : ∀ ss, ofPriority p (r :: ss) = r :: ofPriority p ss := fun ss =>
        List.filter_cons_of_pos (decide_eq_true hp.symm)
      have hrest : ∀ {kept}, ofPriority p (distinct kept rs) = distinct kept (ofPriority p rs) := by
        intro kept
        rw [ih hrs.2, habove', List.nil_append]
      rw [habove, hof, List.nil_append]
      by_cases hr : kept.any (hasKeyOf r) = true
      · rw [distinct_of_any hr, distinct_of_any hr, hrest]
      · rw [distinct_of_not_any hr, distinct_of_not_any hr, hof, hrest]
    · -- From here on all are below.
      have hnone : ofPriority p (r :: rs) = [] := by
        rw [ofPriority, List.filter_eq_nil_iff, List.forall_mem_cons]
        refine ⟨by simpa using hp.ne, fun s hs => ?_⟩
        have hs := hrs.1 s hs
        simp only [decide_eq_true_eq]
        omega
      have hkept : ofPriority p (distinct kept (r :: rs)) = [] := by
        have hsub := (distinct_sublist kept (r :: rs)).filter fun s => decide (s.priority = p)
        exact List.sublist_nil.mp (hnone ▸ hsub)
      rw [hkept, hnone]
      rfl

/-! ### Merges -/

variable {arrays : List (List MatchResult)}

theorem descending_merge (arrays : List (List MatchResult)) : Descending (merge arrays) :=
  (descending_ranked arrays.flatten).sublist (distinct_sublist [] _)

theorem subset_merge (arrays : List (List MatchResult)) : merge arrays ⊆ arrays.flatten :=
  fun _ hr => List.mem_mergeSort.mp ((distinct_sublist [] _).subset hr)

/-- A merge has for every key a result of as high a priority as any. -/
theorem exists_merge (hr : r ∈ arrays.flatten) :
    ∃ s ∈ merge arrays, hasKeyOf r s = true ∧ r.priority ≤ s.priority := by
  have hranked : r ∈ ranked arrays.flatten := List.mem_mergeSort.mpr hr
  rcases @exists_distinct _ [] r (descending_ranked arrays.flatten) hranked with hkept | hs
  · cases hkept
  · exact hs

/-- Results of an equal key and at least the same priority hide all that others do. -/
theorem keysIn_above (h : ∀ r ∈ rs, ∃ s ∈ ss, hasKeyOf r s = true ∧ r.priority ≤ s.priority)
    (p : Int) : KeysIn (above p rs) (above p ss) := by
  intro r hr
  obtain ⟨s, hs, hkey⟩ := List.any_eq_true.mp hr
  obtain ⟨hmem, hp⟩ := List.mem_filter.mp hs
  obtain ⟨t, ht, hst, hle⟩ := h s hmem
  refine List.any_eq_true.mpr ⟨t, List.mem_filter.mpr ⟨ht, ?_⟩, ?_⟩
  · rw [decide_eq_true_eq] at hp ⊢
    exact lt_of_lt_of_le hp hle
  · rw [hasKeyOf_congr hkey]
    exact hst

theorem ofPriority_merge (p : Int) (arrays : List (List MatchResult)) :
    ofPriority p (merge arrays) =
      distinct (above p arrays.flatten) (ofPriority p arrays.flatten) := by
  have habove : (above p (ranked arrays.flatten)).Perm (above p arrays.flatten) :=
    (List.mergeSort_perm arrays.flatten _).filter _
  rw [merge, ofPriority_distinct p (descending_ranked _), ofPriority_ranked, List.append_nil]
  exact distinct_keys_congr (keysIn_of_subset habove.subset) (keysIn_of_subset habove.symm.subset) _

/-- Merging groups of arrays and then what they give is merging all arrays at once. -/
theorem merge_map_merge (groups : List (List (List MatchResult))) :
    merge (groups.map merge) = merge groups.flatten := by
  apply eq_of_ofPriority (descending_merge _) (descending_merge _)
  intro p
  have hof : ∀ f : List (List MatchResult) → List MatchResult,
      ofPriority p (groups.map f).flatten = groups.flatMap fun g => ofPriority p (f g) := by
    intro f
    rw [ofPriority, List.filter_flatten, List.map_map, List.flatMap_def]
    rfl
  have hall : groups.flatten.flatten = (groups.map List.flatten).flatten := List.flatten_flatten
  have hmem : ∀ {f : List (List MatchResult) → List MatchResult} {r},
      r ∈ (groups.map f).flatten ↔ ∃ g ∈ groups, r ∈ f g := by
    intro f r
    rw [← List.flatMap_def, List.mem_flatMap]
  have hgroup : ∀ g ∈ groups, KeysIn (above p g.flatten) (above p (groups.map merge).flatten) := by
    intro g hg
    apply keysIn_above
    intro r hr
    obtain ⟨s, hs, hkey⟩ := exists_merge hr
    exact ⟨s, hmem.mpr ⟨g, hg, hs⟩, hkey⟩
  have hmerged : KeysIn (above p (groups.map merge).flatten)
      (above p (groups.map List.flatten).flatten) := by
    apply keysIn_above
    intro r hr
    obtain ⟨g, hg, hr⟩ := hmem.mp hr
    exact ⟨r, hmem.mpr ⟨g, hg, subset_merge g hr⟩, hasKeyOf_refl r, le_refl _⟩
  have hunmerged : KeysIn (above p (groups.map List.flatten).flatten)
      (above p (groups.map merge).flatten) := by
    apply keysIn_above
    intro r hr
    obtain ⟨g, hg, hr⟩ := hmem.mp hr
    obtain ⟨s, hs, hkey⟩ := exists_merge hr
    exact ⟨s, hmem.mpr ⟨g, hg, hs⟩, hkey⟩
  calc ofPriority p (merge (groups.map merge))
      = distinct (above p (groups.map merge).flatten)
          (groups.flatMap fun g => ofPriority p (merge g)) := by rw [ofPriority_merge, hof]
    _ = distinct (above p (groups.map merge).flatten)
          (groups.flatMap fun g => ofPriority p g.flatten) :=
        distinct_flatMap fun g hg => ⟨_, hgroup g hg, ofPriority_merge p g⟩
    _ = distinct (above p (groups.map List.flatten).flatten)
          (groups.flatMap fun g => ofPriority p g.flatten) :=
        distinct_keys_congr hmerged hunmerged _
    _ = ofPriority p (merge groups.flatten) := by
        rw [ofPriority_merge, List.flatten_flatten, hof]

/-! ### What a merge is -/

/-- Whether `ss` has the results `rs` by descending priority, and those of one priority in the order
that they have in `rs`. -/
structure IsRanking (rs ss : List MatchResult) : Prop where
  descending : Descending ss
  stable : ∀ p, ofPriority p ss = ofPriority p rs

/-- Whether `firsts` has of every key the first result in `rs` and no other, in their order. -/
structure IsFirsts (rs firsts : List MatchResult) : Prop where
  sublist : firsts.Sublist rs
  keys : firsts.Pairwise fun r s => hasKeyOf r s = false
  first : ∀ front r back, rs = front ++ r :: back → (∀ s ∈ front, hasKeyOf r s = false) →
    ∃ before after, firsts = before ++ r :: after ∧ before.Sublist front ∧ after.Sublist back

theorem hasKeyOf_of_mem_distinct (hs : r ∈ distinct kept rs) : kept.any (hasKeyOf r) = false := by
  induction kept, rs using distinct.induct with
  | case1 kept => cases hs
  | case2 kept t rs ht ih =>
    rw [distinct_of_any ht] at hs
    exact ih hs
  | case3 kept t rs ht ih =>
    rw [distinct_of_not_any ht] at hs
    rcases List.mem_cons.mp hs with rfl | hs
    · exact Bool.eq_false_iff.mpr ht
    · exact (Bool.or_eq_false_iff.mp (ih hs)).2

theorem isFirsts_distinct (rs : List MatchResult) : IsFirsts rs (distinct [] rs) := by
  refine ⟨distinct_sublist [] rs, ?_, ?_⟩
  · generalize ([] : List MatchResult) = kept
    induction kept, rs using distinct.induct with
    | case1 kept => exact List.Pairwise.nil
    | case2 kept r rs hr ih =>
      rw [distinct_of_any hr]
      exact ih
    | case3 kept r rs hr ih =>
      rw [distinct_of_not_any hr]
      refine List.Pairwise.cons (fun s hs => ?_) ih
      have hsr := (Bool.or_eq_false_iff.mp (hasKeyOf_of_mem_distinct hs)).1
      by_contra hrs
      rw [← hasKeyOf_congr (Bool.eq_true_of_not_eq_false hrs) r, hasKeyOf_refl] at hsr
      cases hsr
  · rintro front r back rfl hfront
    have hnew : ¬(front ++ []).any (hasKeyOf r) = true := by
      rw [List.append_nil, List.any_eq_true]
      rintro ⟨s, hs, hkey⟩
      rw [hfront s hs] at hkey
      cases hkey
    refine ⟨distinct [] front, distinct (r :: (front ++ [])) back, ?_, distinct_sublist _ _,
      distinct_sublist _ _⟩
    rw [distinct_append, distinct_of_not_any hnew]

end MatchResult

/-! ### Merges of a matcher -/

/-- What is held of the arrays once a call is answered: results are there to be held from then on,
until they are dropped. -/
def holding (held : List (Option (List MatchResult))) :
    MatcherCall × MatcherAnswer → List (Option (List MatchResult))
  | (.drop turn, _) => held.set turn none
  | (_, .results rs) => held ++ [some rs]
  | _ => held

/-- What is held after calls with their answers, by the turns at which it was handed out. -/
def heldAfter (log : List (MatcherCall × MatcherAnswer)) : List (Option (List MatchResult)) :=
  log.foldl holding []

namespace MatcherSession

variable (ts : TypeSystem) (s : MatcherSession)

/-- What is held, wherever it is. -/
def held : List (Option (List MatchResult)) := s.arrays.map fun array => array.map (·.value)

theorem held_step (around : Surroundings) (call : MatcherCall) :
    (s.step ts around call).2.held = holding s.held (call, (s.step ts around call).1) := by
  cases call with
  | getMatches | merge | bring => exact List.map_append
  | drop turn => exact List.map_set
  | _ => rfl

theorem held_run (around : Nat → Surroundings) (calls : List MatcherCall) :
    (s.run ts around calls).2.held =
      (calls.zip (s.run ts around calls).1).foldl holding s.held := by
  induction calls generalizing s around with
  | nil => rfl
  | cons call rest ih =>
    rw [run, ih, held_step, List.zip_cons_cons, List.foldl_cons]

/-- The answers to the first calls are the first answers. -/
theorem run_take (around : Nat → Surroundings) (calls : List MatcherCall) (i : Nat) :
    (s.run ts around (calls.take i)).1 = (s.run ts around calls).1.take i := by
  induction calls generalizing s around i with
  | nil => rw [List.take_nil, run, List.take_nil]
  | cons call rest ih =>
    cases i with
    | zero => rfl
    | succ i => exact congrArg ((s.step ts (around 0) call).1 :: ·) (ih _ _ i)

theorem map_value_pick (turns : List Nat) :
    (s.pick turns).map (·.value) = turns.filterMap fun turn => s.held[turn]?.join := by
  rw [pick, List.map_filterMap]
  refine List.filterMap_congr fun turn _ => ?_
  rw [held, List.getElem?_map]
  cases s.arrays[turn]? with
  | none => rfl
  | some array => rfl

/-- A matcher merges what is held of the turns that it is asked for. An array that was merged before
is kept in use by the cache, so no other can pass for it. -/
theorem merge_of_run (rules : List MatchRule) (isCaching : Bool) (around : Nat → Surroundings)
    {calls : List MatcherCall} {i : Nat} {turns : List Nat}
    (hi : calls[i]? = some (.merge turns)) :
    ((start rules isCaching).run ts around calls).1[i]? = some (.results (MatchResult.merge
      (turns.filterMap fun turn => (heldAfter ((calls.zip
        ((start rules isCaching).run ts around calls).1).take i))[turn]?.join))) := by
  have hcoherent := (Coherent.start ts rules isCaching).run around (calls.take i)
  have hmerge := (hcoherent.merge (around i) (pick_subset_live _ turns)).2
  have hheld : ((start rules isCaching).run ts around (calls.take i)).2.held =
      heldAfter ((calls.zip ((start rules isCaching).run ts around calls).1).take i) := by
    rw [held_run, run_take, heldAfter, List.zip, List.take_zipWith]
    rfl
  rw [map_value_pick, hheld] at hmerge
  rw [getElem?_run ts _ around hi, step, handOut, hmerge]

end MatcherSession

namespace MatchResult

/-- A merge has of every key the first result, once all are ranked by priority, so it loses and
repeats no key. Merging what groups of arrays merge to is merging all of them, and a merge is its
own. In every run a matcher gives this merge of the arrays that it is asked for, whatever it has
been asked before, whether it caches or not, and even where an array goes to the address of one that
was dropped. -/
theorem merge_canonical :
    (∀ arrays, (∃ ranking, IsRanking arrays.flatten ranking ∧ IsFirsts ranking (merge arrays)) ∧
      merge arrays ⊆ arrays.flatten ∧ ((merge arrays).Pairwise fun r s => hasKeyOf r s = false) ∧
      ∀ r ∈ arrays.flatten, ∃ s ∈ merge arrays, hasKeyOf r s = true ∧ r.priority ≤ s.priority) ∧
    (∀ groups : List (List (List MatchResult)), merge (groups.map merge) = merge groups.flatten) ∧
    (∀ arrays, merge [merge arrays] = merge arrays) ∧
    ∀ ts rules isCaching around calls i turns, calls[i]? = some (MatcherCall.merge turns) →
      ((MatcherSession.start rules isCaching).run ts around calls).1[i]? =
        some (MatcherAnswer.results (merge (turns.filterMap fun turn =>
          (heldAfter ((calls.zip ((MatcherSession.start rules isCaching).run ts around
            calls).1).take i))[turn]?.join))) := by
  refine ⟨fun arrays => ?_, merge_map_merge, fun arrays => ?_, ?_⟩
  · have hranking : IsRanking arrays.flatten (ranked arrays.flatten) :=
      ⟨descending_ranked _, fun p => ofPriority_ranked p _⟩
    have hfirsts := isFirsts_distinct (ranked arrays.flatten)
    exact ⟨⟨_, hranking, hfirsts⟩, subset_merge arrays, hfirsts.keys, fun r => exists_merge⟩
  · have hone := merge_map_merge [arrays]
    rwa [List.flatten_singleton] at hone
  · exact fun ts rules isCaching around calls i turns =>
      MatcherSession.merge_of_run ts rules isCaching around

namespace Sample

/-- A result of a candidate with its number for its priority. -/
def result (id : CandidateId) (resolved : Ty) (rule : String) : MatchResult :=
  ⟨⟨id, resolved, [], id⟩, resolved, [], rule⟩

def arrays : List (List MatchResult) :=
  [[result 1 .int "exact", result 0 .bool "exact"], [result 1 .int "host", result 2 .int "exact"]]

/-- The first array is merged and dropped. Its merge keeps it in use until there is another rule,
and after that its address goes to a third one. -/
def reuse : List MatcherCall :=
  [.bring [result 0 .int "exact"], .merge [0, 0], .drop 0, .bring [result 1 .int "exact"],
    .merge [2, 2], .addRule .exact, .bring [result 2 .int "exact"], .merge [4, 4]]

def reused (isCaching : Bool) : List MatcherAnswer × MatcherSession :=
  (MatcherSession.start MatchRule.defaults isCaching).run MatchRule.Sample.pairTypes
    (fun _ => MatcherSession.Sample.crowded) reuse

end Sample

/-- The second result of candidate 1 has a key that is there before. -/
theorem merge_canonical_arrays :
    merge (Sample.arrays.map fun array => merge [array]) = merge Sample.arrays ∧
    (∃ s ∈ merge Sample.arrays, hasKeyOf (Sample.result 1 .int "host") s = true ∧ 1 ≤ s.priority) ∧
    (Sample.reused true).2.arrays.map (·.map (·.address)) =
      [none, some 1, some 2, some 3, some 0, some 4] ∧
    (Sample.reused true).1[4]? = some (.results (merge [[Sample.result 1 .int "exact"],
      [Sample.result 1 .int "exact"]])) ∧
    (Sample.reused true).1[7]? = some (.results (merge [[Sample.result 2 .int "exact"],
      [Sample.result 2 .int "exact"]])) := by
  refine ⟨?_, ?_, ?_, ?_, ?_⟩
  · exact merge_canonical.2.1 (Sample.arrays.map fun array => [array])
  · exact (merge_canonical.1 Sample.arrays).2.2.2 (Sample.result 1 .int "host")
      (by simp [Sample.arrays])
  · decide +kernel
  · exact merge_canonical.2.2.2 _ _ true _ Sample.reuse 4 [2, 2] rfl
  · exact merge_canonical.2.2.2 _ _ true _ Sample.reuse 7 [4, 4] rfl

end MatchResult

end Introspect

import Introspect.Proofs.Match.Caching
import Introspect.Proofs.Match.Ranking

/-!
Runs of a matcher. Whatever is asked of it before, a matcher with caches answers like one that
computes everything afresh, and its answers are those of the rules and candidates that the calls
before have left.
-/

namespace Introspect

/-! ### The state that calls make -/

/-- What answers depend on. -/
structure MatcherState where
  rules : List MatchRule
  candidates : List Candidate
  nextId : CandidateId

def Matcher.state (m : Matcher) : MatcherState := ⟨m.rules, m.candidates, m.nextId⟩

namespace MatcherState

def after (state : MatcherState) : MatcherCall → MatcherState
  | .register source constraints priority =>
    { state with
      candidates := state.candidates ++ [⟨state.nextId, source, constraints, priority⟩]
      nextId := state.nextId + 1 }
  | .unregister id => { state with candidates := state.candidates.filter fun c => c.id != id }
  | .addRule rule => { state with rules := state.rules ++ [rule] }
  | .removeRule name => { state with rules := state.rules.filter fun r => r.name != name }
  | _ => state

def afterAll (rules : List MatchRule) (calls : List MatcherCall) : MatcherState :=
  calls.foldl after ⟨rules, [], 0⟩

/-- What holds at the start and is kept by every call holds after all of them. -/
theorem afterAll_ind {P : MatcherState → Prop} {rules : List MatchRule} {calls : List MatcherCall}
    (hstart : P ⟨rules, [], 0⟩) (hstep : ∀ state, ∀ call ∈ calls, P state → P (state.after call)) :
    P (afterAll rules calls) := by
  unfold afterAll
  generalize (⟨rules, [], 0⟩ : MatcherState) = state at hstart ⊢
  induction calls generalizing state with
  | nil => exact hstart
  | cons call rest ih =>
    have hrest := fun state c (hc : c ∈ rest) => hstep state c (List.mem_cons_of_mem call hc)
    exact ih hrest _ (hstep state call List.mem_cons_self hstart)

/-- Every rule was there before or was added. -/
theorem rules_after {P : MatchRule → Prop} {state : MatcherState} {call : MatcherCall}
    (hrules : ∀ rule ∈ state.rules, P rule) (hcall : ∀ rule, call = .addRule rule → P rule) :
    ∀ rule ∈ (state.after call).rules, P rule := by
  cases call with
  | addRule added =>
    intro rule hrule
    rcases List.mem_append.mp hrule with hrule | hrule
    · exact hrules rule hrule
    · obtain rfl := List.mem_singleton.mp hrule
      exact hcall rule rfl
  | removeRule name => exact fun rule hrule => hrules rule (List.mem_of_mem_filter hrule)
  | _ => exact hrules

/-- Without additions the rules only get fewer. -/
theorem sublist_after {state : MatcherState} {call : MatcherCall}
    (hcall : ∀ rule, call ≠ .addRule rule) : (state.after call).rules.Sublist state.rules := by
  cases call with
  | addRule added => exact absurd rfl (hcall added)
  | removeRule name => exact List.filter_sublist
  | _ => exact List.Sublist.refl _

/-- Whether candidates have identifiers of their own, all of them handed out before. -/
structure Fresh (state : MatcherState) : Prop where
  nodup : (state.candidates.map Candidate.id).Nodup
  lt : ∀ c ∈ state.candidates, c.id < state.nextId

theorem Fresh.after {state : MatcherState} (h : state.Fresh) (call : MatcherCall) :
    (state.after call).Fresh := by
  cases call with
  | register source constraints priority =>
    refine ⟨?_, fun c hc => ?_⟩
    · simp only [MatcherState.after, List.map_append, List.map_cons, List.map_nil]
      refine List.nodup_append.mpr ⟨h.nodup, List.nodup_singleton _, fun i hi j hj => ?_⟩
      obtain ⟨c, hc, rfl⟩ := List.mem_map.mp hi
      obtain rfl := List.mem_singleton.mp hj
      exact Nat.ne_of_lt (h.lt c hc)
    · rcases List.mem_append.mp hc with hc | hc
      · exact Nat.lt_succ_of_lt (h.lt c hc)
      · obtain rfl := List.mem_singleton.mp hc
        exact Nat.lt_succ_self _
  | unregister id =>
    exact ⟨h.nodup.sublist (List.filter_sublist.map _),
      fun c hc => h.lt c (List.mem_of_mem_filter hc)⟩
  | _ => exact ⟨h.nodup, h.lt⟩

end MatcherState

namespace Matcher

variable {m : Matcher}

theorem state_mutate (m : Matcher) (reactions : Reactions) (event : MatcherEvent)
    (hasEffect : Bool) : (m.mutate reactions event hasEffect).matcher.state = m.state := by
  cases hasEffect <;> rfl

theorem state_getMatches (ts : TypeSystem) (fresh : Address) (targets : List Ty) :
    (m.getMatches ts fresh targets).2.state = m.state := by
  rcases m.getMatches_cases ts fresh targets with ⟨_, -, -, heq⟩ | ⟨_, -, heq⟩
  · rw [heq]
  · rw [heq, state, state]

theorem state_merge (fresh : Address) (inputs : List MatchResults) :
    (m.merge fresh inputs).2.state = m.state := by
  rcases m.merge_cases fresh inputs with ⟨_, _, -, -, -, heq⟩ | ⟨_, _, -, -, heq⟩
  · rw [heq]
  · rw [heq, state, state]

end Matcher

namespace MatcherSession

variable (ts : TypeSystem) (s : MatcherSession)

/-- A call does to rules and candidates what it says, and nothing else. -/
theorem state_step (around : Surroundings) (call : MatcherCall) :
    (s.step ts around call).2.matcher.state = s.matcher.state.after call := by
  cases call with
  | register source constraints priority => rfl
  | unregister id => exact Matcher.state_mutate _ _ _ _
  | addRule rule => rfl
  | removeRule name =>
    simp only [step, settle, Matcher.removeRule_eq_mutate]
    exact Matcher.state_mutate _ _ _ _
  | getMatches targets | bestMatch targets => exact Matcher.state_getMatches _ _ _
  | merge turns => exact Matcher.state_merge _ _
  | bring results | drop turn => rfl

theorem state_run (around : Nat → Surroundings) (calls : List MatcherCall) :
    (s.run ts around calls).2.matcher.state =
      calls.foldl MatcherState.after s.matcher.state := by
  induction calls generalizing s around with
  | nil => rfl
  | cons call rest ih =>
    rw [List.foldl_cons, ← s.state_step ts (around 0) call]
    exact ih _ _

/-- Each answer is the one that the session gives which the calls before have led to. -/
theorem getElem?_run (around : Nat → Surroundings) {calls : List MatcherCall} {i : Nat}
    {call : MatcherCall} (hcall : calls[i]? = some call) :
    (s.run ts around calls).1[i]? =
      some ((s.run ts around (calls.take i)).2.step ts (around i) call).1 := by
  induction calls generalizing s around i with
  | nil => cases hcall
  | cons first rest ih =>
    cases i with
    | zero =>
      cases hcall
      rfl
    | succ i => exact ih (s.step ts (around 0) first).2 (fun turn => around (turn + 1)) hcall

end MatcherSession

/-! ### Two sessions -/

/-- The same answer up to the equality of types. -/
inductive MatcherAnswer.Same : MatcherAnswer → MatcherAnswer → Prop
  | done : Same .done .done
  | registered (id : CandidateId) : Same (.registered id) (.registered id)
  | changed (hasEffect : Bool) : Same (.changed hasEffect) (.changed hasEffect)
  | results {rs ss : List MatchResult} :
    List.Forall₂ MatchResult.Same rs ss → Same (.results rs) (.results ss)
  | best {r s : Option MatchResult} : Option.Rel MatchResult.Same r s → Same (.best r) (.best s)

theorem rel_set {α β : Type} {R : α → β → Prop} {as : List α} {bs : List β}
    (h : List.Forall₂ R as bs) {a : α} {b : β} (hab : R a b) (i : Nat) :
    List.Forall₂ R (as.set i a) (bs.set i b) := by
  induction h generalizing i with
  | nil => exact .nil
  | cons hhead htail ih =>
    cases i with
    | zero => exact .cons hab htail
    | succ i => exact .cons hhead (ih i)

/-- Sessions with the same rules and candidates that hold equal results. Where these are need not be
the same. -/
structure Agree (s s' : MatcherSession) : Prop where
  state : s.matcher.state = s'.matcher.state
  arrays : List.Forall₂ (Option.Rel fun (a a' : MatchResults) =>
    List.Forall₂ MatchResult.Same a.value a'.value) s.arrays s'.arrays

namespace Agree

variable {ts : TypeSystem} {s s' : MatcherSession}

theorem getMatches (h : Agree s s') (hs : s.matcher.Sound ts) (hs' : s'.matcher.Sound ts)
    (hrules : ∀ rule ∈ s.matcher.rules, rule.IsPure ts) (fresh fresh' : Address)
    (targets : List Ty) :
    List.Forall₂ MatchResult.Same (s.matcher.getMatches ts fresh targets).1.value
      (s'.matcher.getMatches ts fresh' targets).1.value := by
  -- Either cache may have been filled under another spelling of the targets.
  obtain ⟨one, hone, hvalue⟩ := (hs.getMatches fresh targets).2
  obtain ⟨other, hother, hvalue'⟩ := (hs'.getMatches fresh' targets).2
  have hcompute : s'.matcher.compute ts other = s.matcher.compute ts other := by
    have hrules : s'.matcher.rules = s.matcher.rules := congrArg MatcherState.rules h.state.symm
    have hcandidates : s'.matcher.candidates = s.matcher.candidates :=
      congrArg MatcherState.candidates h.state.symm
    rw [Matcher.compute, Matcher.compute, hrules, hcandidates]
  rw [hvalue, hvalue', hcompute]
  exact MatchResult.ranked_congr
    (MatchResult.found_congr hrules (BEq.trans hone (BEq.symm hother)))

/-- The turns pick arrays of the same places, which hold equal results. -/
theorem pick (h : Agree s s') (turns : List Nat) :
    List.Forall₂ (List.Forall₂ MatchResult.Same) ((s.pick turns).map (·.value))
      ((s'.pick turns).map (·.value)) := by
  rw [List.forall₂_map_left_iff, List.forall₂_map_right_iff]
  refine List.rel_filterMap (R := (· = ·)) ?_ (List.forall₂_same.mpr fun _ _ => rfl)
  rintro turn _ rfl
  have hheld := rel_bind (rel_getElem? h.arrays turn) fun _ _ hturn => hturn
  exact hheld

/-- Equal results are handed out in both. -/
theorem handOut (h : Agree s s') {out out' : MatchResults × Matcher}
    (hresults : List.Forall₂ MatchResult.Same out.1.value out'.1.value)
    (hstate : out.2.state = out'.2.state) :
    (s.handOut out).1.Same (s'.handOut out').1 ∧ Agree (s.handOut out).2 (s'.handOut out').2 :=
  ⟨.results hresults, hstate, List.rel_append h.arrays (.cons (.some hresults) .nil)⟩

theorem step (h : Agree s s') (hs : Coherent ts s) (hs' : Coherent ts s')
    (hrules : ∀ rule ∈ s.matcher.rules, rule.IsPure ts) (around around' : Surroundings)
    (call : MatcherCall) :
    (s.step ts around call).1.Same (s'.step ts around' call).1 ∧
      Agree (s.step ts around call).2 (s'.step ts around' call).2 := by
  have hstate : (s.step ts around call).2.matcher.state =
      (s'.step ts around' call).2.matcher.state := by
    rw [s.state_step, s'.state_step, h.state]
  cases call with
  | register source constraints priority =>
    refine ⟨?_, hstate, h.arrays⟩
    have hid : s.matcher.nextId = s'.matcher.nextId := congrArg MatcherState.nextId h.state
    simp only [MatcherSession.step, MatcherSession.settle, Matcher.register, hid]
    exact .registered _
  | unregister id =>
    refine ⟨?_, hstate, h.arrays⟩
    have hcandidates : s.matcher.candidates = s'.matcher.candidates :=
      congrArg MatcherState.candidates h.state
    simp only [MatcherSession.step, MatcherSession.settle, Matcher.unregister_eq_mutate,
      Matcher.answer_mutate, hcandidates]
    exact .changed _
  | addRule rule => exact ⟨.done, hstate, h.arrays⟩
  | removeRule name =>
    refine ⟨?_, hstate, h.arrays⟩
    have hrules : s.matcher.rules = s'.matcher.rules := congrArg MatcherState.rules h.state
    simp only [MatcherSession.step, MatcherSession.settle, Matcher.removeRule_eq_mutate,
      Matcher.answer_mutate, Matcher.ruleNames, hrules]
    exact .changed _
  | getMatches targets => exact h.handOut (h.getMatches hs.sound hs'.sound hrules _ _ _) hstate
  | bestMatch targets =>
    refine ⟨.best ?_, hstate, h.arrays⟩
    simp only [List.head?_eq_getElem?]
    exact rel_getElem? (h.getMatches hs.sound hs'.sound hrules _ _ _) 0
  | merge turns =>
    refine h.handOut ?_ hstate
    rw [(hs.merge around (s.pick_subset_live turns)).2,
      (hs'.merge around' (s'.pick_subset_live turns)).2]
    exact MatchResult.merge_congr (h.pick turns)
  | bring results =>
    exact h.handOut (List.forall₂_same.mpr fun r _ => ⟨rfl, BEq.rfl, BEq.rfl, rfl⟩) hstate
  | drop turn => exact ⟨.done, hstate, rel_set h.arrays .none turn⟩

theorem run (h : Agree s s') (hs : Coherent ts s) (hs' : Coherent ts s')
    (around around' : Nat → Surroundings) {calls : List MatcherCall}
    (hrules : ∀ rule ∈ s.matcher.rules, rule.IsPure ts)
    (hcalls : ∀ rule, .addRule rule ∈ calls → rule.IsPure ts) :
    List.Forall₂ MatcherAnswer.Same (s.run ts around calls).1 (s'.run ts around' calls).1 := by
  induction calls generalizing s s' around around' with
  | nil => exact .nil
  | cons call rest ih =>
    obtain ⟨hanswer, hagree⟩ := h.step hs hs' hrules (around 0) (around' 0) call
    refine .cons hanswer (ih hagree (hs.step _ call) (hs'.step _ call) _ _ ?_ fun rule hrule =>
      hcalls rule (List.mem_cons_of_mem call hrule))
    have hafter := @MatcherState.rules_after _ s.matcher.state call hrules
      fun rule hrule => hcalls rule (hrule ▸ List.mem_cons_self)
    rw [← s.state_step ts (around 0) call] at hafter
    exact hafter

end Agree

namespace MatcherSession

/-- Whether the rules at the start and those added answer equal targets alike. -/
def PureRules (ts : TypeSystem) (rules : List MatchRule) (calls : List MatcherCall) : Prop :=
  (∀ rule ∈ rules, rule.IsPure ts) ∧ ∀ rule, .addRule rule ∈ calls → rule.IsPure ts

/-- Matches are what rules and candidates give now for equal targets. -/
theorem exists_ranked_found (ts : TypeSystem) (rules : List MatchRule) (isCaching : Bool)
    (around : Nat → Surroundings) (calls : List MatcherCall) (fresh : Address)
    (targets : List Ty) :
    ∃ targets', (targets' == targets) = true ∧
      (((start rules isCaching).run ts around calls).2.matcher.getMatches ts fresh
          targets).1.value =
        MatchResult.ranked (MatchResult.found ts (MatcherState.afterAll rules calls).rules
          (MatcherState.afterAll rules calls).candidates targets') := by
  have hstate : ((start rules isCaching).run ts around calls).2.matcher.state =
      .afterAll rules calls :=
    state_run ts _ around calls
  have hcoherent := (Coherent.start ts rules isCaching).run around calls
  obtain ⟨targets', hsame, hvalue⟩ := (hcoherent.sound.getMatches fresh targets).2
  rw [← hstate]
  exact ⟨targets', hsame, hvalue⟩

/-- In every run the matches for targets are those of the rules and candidates that the calls before
have left, at targets equal to these, and no candidate is there twice if the rules are those of a
new matcher. If rules answer equal targets alike then they are the matches for the targets
themselves, and with caches all answers are the same as without, wherever arrays go in either. -/
theorem answers_of_run (ts : TypeSystem) (rules : List MatchRule) (calls : List MatcherCall) :
    (∀ isCaching around i targets, calls[i]? = some (.getMatches targets) → ∃ results,
      ((start rules isCaching).run ts around calls).1[i]? = some (.results results) ∧
      (∃ targets', (targets' == targets) = true ∧
        Answers ts (MatcherState.afterAll rules (calls.take i)).rules
          (MatcherState.afterAll rules (calls.take i)).candidates targets' results) ∧
      (PureRules ts rules calls →
        Answers ts (MatcherState.afterAll rules (calls.take i)).rules
          (MatcherState.afterAll rules (calls.take i)).candidates targets results) ∧
      (rules = MatchRule.defaults → (∀ rule, .addRule rule ∉ calls) →
        (results.map (·.candidate.id)).Nodup)) ∧
    (PureRules ts rules calls → ∀ around around',
      List.Forall₂ MatcherAnswer.Same ((start rules true).run ts around calls).1
        ((start rules false).run ts around' calls).1) := by
  have hagree : Agree (start rules true) (start rules false) := ⟨rfl, .nil⟩
  refine ⟨fun isCaching around i targets hi => ?_, fun hpure around around' =>
    hagree.run (.start ts rules true) (.start ts rules false) around around' hpure.1 hpure.2⟩
  have hbefore : ∀ call ∈ calls.take i, call ∈ calls := fun call => List.mem_of_mem_take
  obtain ⟨targets', hsame, hvalue⟩ :=
    exists_ranked_found ts rules isCaching around (calls.take i)
      (((start rules isCaching).run ts around (calls.take i)).2.fresh (around i)) targets
  refine ⟨_, getElem?_run ts _ around hi, ?_, fun hpure => ?_, fun hdefaults hnone => ?_⟩
  · rw [hvalue]
    exact ⟨targets', hsame, MatchResult.answers_ranked_found⟩
  · have hrules := @MatcherState.afterAll_ind (fun state => ∀ rule ∈ state.rules, rule.IsPure ts)
      rules (calls.take i) hpure.1 fun state call hcall hstate =>
        MatcherState.rules_after hstate fun rule hrule => hpure.2 rule (hrule ▸ hbefore call hcall)
    rw [hvalue]
    exact MatchResult.answers_ranked_found.of_beq hrules hsame
  · have hsublist := @MatcherState.afterAll_ind
      (fun state => state.rules.Sublist MatchRule.defaults) rules (calls.take i)
      (hdefaults ▸ List.Sublist.refl _) fun state call hcall hstate =>
        (MatcherState.sublist_after fun rule hrule =>
          hnone rule (hrule ▸ hbefore call hcall)).trans hstate
    have hfresh := @MatcherState.afterAll_ind MatcherState.Fresh rules (calls.take i)
      ⟨List.nodup_nil, nofun⟩ fun state call _ h => h.after call
    rw [hvalue]
    exact MatchResult.nodup_ranked_found
      ((MatchRule.pairwise_excludes_defaults ts).sublist hsublist) hfresh.nodup targets'

namespace Sample

/-- Two candidates for one pair of targets, matched before and after a rule goes. The first matches
are dropped in between. -/
def script : List MatcherCall :=
  [.register .bool [.int, .string] 1,
    .register MatchRule.Sample.pair.selfTy MatchRule.Sample.pair.selfTy.args 0,
    .getMatches [.int, .string], .merge [0, 0], .drop 0, .removeRule "exact",
    .getMatches [.int, .string], .merge [1, 2, 1], .merge [0, 1, 2]]

/-- Each array goes to the first free address, and subscribers leave the list alone. -/
def crowded : Surroundings := ⟨firstFree, firstFree_not_mem, fun _ => []⟩

end Sample

theorem answers_of_run_script :
    (∃ results,
      ((start MatchRule.defaults true).run MatchRule.Sample.pairTypes (fun _ => Sample.crowded)
        Sample.script).1[6]? = some (.results results) ∧
      Answers MatchRule.Sample.pairTypes [.genericConstraint, .nestedDecomposition]
        (MatcherState.afterAll MatchRule.defaults (Sample.script.take 6)).candidates
        [.int, .string] results ∧
      (results.map (·.candidate.id)).Nodup) ∧
    List.Forall₂ MatcherAnswer.Same
      ((start MatchRule.defaults true).run MatchRule.Sample.pairTypes (fun _ => Sample.crowded)
        Sample.script).1
      ((start MatchRule.defaults false).run MatchRule.Sample.pairTypes (fun _ => Sample.crowded)
        Sample.script).1 := by
  have hnone : ∀ rule, .addRule rule ∉ Sample.script := by
    intro rule hrule
    simp [Sample.script] at hrule
  have hpure : PureRules MatchRule.Sample.pairTypes MatchRule.defaults Sample.script :=
    ⟨fun _ => MatchRule.isPure_of_mem_defaults, fun rule hrule => absurd hrule (hnone rule)⟩
  obtain ⟨hmatches, hsame⟩ :=
    answers_of_run MatchRule.Sample.pairTypes MatchRule.defaults Sample.script
  obtain ⟨results, hresults, -, hanswers, hnodup⟩ :=
    hmatches true (fun _ => Sample.crowded) 6 [.int, .string] rfl
  exact ⟨⟨results, hresults, hanswers hpure, hnodup rfl hnone⟩, hsame hpure _ _⟩

end MatcherSession

end Introspect

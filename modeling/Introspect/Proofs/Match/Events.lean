import Introspect.Proofs.Match.MatcherRun

/-!
The events of a matcher. A subscriber that is there from the start hears of each call that changes
the rules or the candidates, and of no other, so what it hears is enough to keep a copy of their
identifiers and names.
-/

namespace Introspect

namespace Subscribers

/-! ### A subscriber that stays -/

/-- Whether a subscriber is on the list once. -/
structure Watches (s : Subscribers) (id : SubscriptionId) : Prop where
  once : s.entries.count id = 1
  lt : id < s.nextId

variable {s : Subscribers} {id : SubscriptionId}

theorem Watches.subscribe (h : s.Watches id) : s.subscribe.2.Watches id := by
  refine ⟨?_, Nat.lt_succ_of_lt h.lt⟩
  have hnew : [s.nextId].count id = 0 := List.count_eq_zero.mpr fun hmem =>
    Nat.ne_of_lt h.lt (List.mem_singleton.mp hmem)
  rw [Subscribers.subscribe, List.count_append, h.once, hnew]

theorem Watches.unsubscribe (h : s.Watches id) {other : SubscriptionId} (hother : other ≠ id) :
    (s.unsubscribe other).2.Watches id := by
  refine ⟨?_, h.lt⟩
  rw [Subscribers.unsubscribe, List.count_filter (by simpa using hother.symm), h.once]

theorem Watches.apply (h : s.Watches id) {change : SubscriberChange}
    (hchange : change ≠ .unsubscribe id) : (s.apply change).Watches id := by
  cases change with
  | subscribe => exact h.subscribe
  | unsubscribe other => exact h.unsubscribe fun heq => hchange (heq ▸ rfl)

theorem Watches.applyAll (h : s.Watches id) {changes : List SubscriberChange}
    (hchanges : .unsubscribe id ∉ changes) : (changes.foldl Subscribers.apply s).Watches id := by
  induction changes generalizing s with
  | nil => exact h
  | cons change rest ih =>
    rw [List.mem_cons, not_or] at hchanges
    exact ih (h.apply (Ne.symm hchanges.1)) hchanges.2

/-- Whoever reacts, a subscriber stays that nobody takes off the list. -/
theorem Watches.notify (h : s.Watches id) {reactions : Reactions}
    (hreactions : ∀ other, .unsubscribe id ∉ reactions other) :
    (s.notify reactions).2.Watches id := by
  unfold Subscribers.notify
  generalize s.entries = notified
  induction notified generalizing s with
  | nil => exact h
  | cons other rest ih => exact ih (h.applyAll (hreactions other))

end Subscribers

/-- Whether no subscriber takes one off the list, not even the one itself. -/
def Surroundings.Spares (around : Surroundings) (id : SubscriptionId) : Prop :=
  ∀ other, .unsubscribe id ∉ around.reactions other

/-! ### What a subscriber hears -/

/-- The events that reach a subscriber. -/
def heard (id : SubscriptionId) (deliveries : List Delivery) : List MatcherEvent :=
  (deliveries.filter fun d => d.1 == id).map (·.2)

/-- What tells of a call: nothing where it has no effect. -/
def MatcherCall.event? (m : Matcher) : MatcherCall → Option MatcherEvent
  | .register .. => some (.registered m.nextId)
  | .unregister id =>
    if m.candidates.any fun c => c.id == id then some (.unregistered id) else none
  | .addRule rule => some (.ruleAdded rule.name)
  | .removeRule name => if m.ruleNames.contains name then some (.ruleRemoved name) else none
  | _ => none

namespace Matcher

variable {m : Matcher} {watcher : SubscriptionId}

/-- A change with an effect is heard of once. -/
theorem heard_mutate (hw : m.subscribers.Watches watcher) (reactions : Reactions)
    (event : MatcherEvent) (hasEffect : Bool) :
    heard watcher (m.mutate reactions event hasEffect).deliveries =
      if hasEffect then [event] else [] := by
  cases hasEffect with
  | false => rfl
  | true =>
    have hfilter : (m.mutate reactions event true).deliveries.filter (fun d => d.1 == watcher) =
        (m.subscribers.entries.filter (· == watcher)).map fun i => (i, event) := List.filter_map
    rw [heard, hfilter, List.filter_beq, hw.once]
    rfl

theorem watches_mutate (hw : m.subscribers.Watches watcher) {reactions : Reactions}
    (hreactions : ∀ other, .unsubscribe watcher ∉ reactions other) (event : MatcherEvent)
    (hasEffect : Bool) :
    (m.mutate reactions event hasEffect).matcher.subscribers.Watches watcher := by
  cases hasEffect with
  | false => exact hw
  | true => exact hw.notify hreactions

theorem subscribers_getMatches (m : Matcher) (ts : TypeSystem) (fresh : Address)
    (targets : List Ty) : (m.getMatches ts fresh targets).2.subscribers = m.subscribers := by
  rcases m.getMatches_cases ts fresh targets with ⟨_, -, -, heq⟩ | ⟨_, -, heq⟩ <;> rw [heq]

theorem subscribers_merge (m : Matcher) (fresh : Address) (inputs : List MatchResults) :
    (m.merge fresh inputs).2.subscribers = m.subscribers := by
  rcases m.merge_cases fresh inputs with ⟨_, _, -, -, -, heq⟩ | ⟨_, _, -, -, heq⟩ <;> rw [heq]

end Matcher

namespace MatcherSession

/-- What a call sends to the subscribers. -/
def deliveries (around : Surroundings) (s : MatcherSession) : MatcherCall → List Delivery
  | .register source constraints priority =>
    (s.matcher.register around.reactions source constraints priority).deliveries
  | .unregister id => (s.matcher.unregister around.reactions id).deliveries
  | .addRule rule => (s.matcher.addRule around.reactions rule).deliveries
  | .removeRule name => (s.matcher.removeRule around.reactions name).deliveries
  | _ => []

/-- All events that reach a subscriber in a run. -/
def eventsOf (ts : TypeSystem) (around : Nat → Surroundings) (id : SubscriptionId)
    (s : MatcherSession) : List MatcherCall → List MatcherEvent
  | [] => []
  | call :: rest => heard id (s.deliveries (around 0) call) ++
    eventsOf ts (fun turn => around (turn + 1)) id (s.step ts (around 0) call).2 rest

variable {ts : TypeSystem} {s : MatcherSession} {watcher : SubscriptionId}

theorem heard_deliveries (hw : s.matcher.subscribers.Watches watcher) (around : Surroundings)
    (call : MatcherCall) :
    heard watcher (s.deliveries around call) = (call.event? s.matcher).toList := by
  cases call with
  | register source constraints priority =>
    exact Matcher.heard_mutate (m := { s.matcher with nextId := _, candidates := _ }) hw
      around.reactions _ true
  | unregister id =>
    simp only [deliveries, MatcherCall.event?, Matcher.unregister_eq_mutate]
    rw [Matcher.heard_mutate (by exact hw)]
    split <;> rfl
  | addRule rule =>
    exact Matcher.heard_mutate (m := { s.matcher with rules := _ }) hw around.reactions _ true
  | removeRule name =>
    simp only [deliveries, MatcherCall.event?, Matcher.removeRule_eq_mutate]
    rw [Matcher.heard_mutate (by exact hw)]
    split <;> rfl
  | _ => rfl

/-! ### The subscriber in a run -/

theorem watches_step (hw : s.matcher.subscribers.Watches watcher) {around : Surroundings}
    (hspares : around.Spares watcher) (call : MatcherCall) :
    (s.step ts around call).2.matcher.subscribers.Watches watcher := by
  cases call with
  | register source constraints priority | addRule rule => exact hw.notify hspares
  | unregister id => exact Matcher.watches_mutate (by exact hw) hspares _ _
  | removeRule name =>
    simp only [step, settle, Matcher.removeRule_eq_mutate]
    exact Matcher.watches_mutate (by exact hw) hspares _ _
  | getMatches targets | bestMatch targets =>
    exact (s.matcher.subscribers_getMatches ts (s.fresh around) targets).symm ▸ hw
  | merge turns =>
    exact (s.matcher.subscribers_merge (s.fresh around) (s.pick turns)).symm ▸ hw
  | bring results | drop turn => exact hw

theorem watches_run (hw : s.matcher.subscribers.Watches watcher) {around : Nat → Surroundings}
    (hspares : ∀ turn, (around turn).Spares watcher) (calls : List MatcherCall) :
    (s.run ts around calls).2.matcher.subscribers.Watches watcher := by
  induction calls generalizing s around with
  | nil => exact hw
  | cons call rest ih =>
    exact ih (watches_step hw (hspares 0) call) fun turn => hspares (turn + 1)

/-- A call is told of exactly if it changes the rules or the candidates. -/
theorem event?_eq_none_iff (around : Surroundings) (call : MatcherCall) :
    call.event? s.matcher = none ↔
      (s.step ts around call).2.matcher.state = s.matcher.state := by
  rw [s.state_step ts around call]
  cases call with
  | register source constraints priority =>
    refine ⟨fun hnone => absurd hnone (Option.some_ne_none _), fun hsame => ?_⟩
    exact absurd (congrArg MatcherState.nextId hsame) (Nat.succ_ne_self _)
  | unregister id =>
    simp [MatcherCall.event?, MatcherState.after, Matcher.state, List.filter_eq_self]
  | addRule rule =>
    refine ⟨fun hnone => absurd hnone (Option.some_ne_none _), fun hsame => ?_⟩
    have hlength := congrArg (fun state : MatcherState => state.rules.length) hsame
    simp [Matcher.state, MatcherState.after] at hlength
  | removeRule name =>
    simp [MatcherCall.event?, MatcherState.after, Matcher.state, Matcher.ruleNames,
      List.filter_eq_self]
  | _ => exact ⟨fun _ => rfl, fun _ => rfl⟩

end MatcherSession

/-! ### The view -/

/-- The identifiers of the candidates and the names of the rules, each in their order. -/
structure MatcherView where
  ids : List CandidateId
  ruleNames : List String

/-- What becomes of a view when an event is heard. -/
def MatcherView.replay (v : MatcherView) : MatcherEvent → MatcherView
  | .registered id => { v with ids := v.ids ++ [id] }
  | .unregistered id => { v with ids := v.ids.erase id }
  | .ruleAdded name => { v with ruleNames := v.ruleNames ++ [name] }
  | .ruleRemoved name => { v with ruleNames := v.ruleNames.filter (· != name) }

def MatcherState.view (state : MatcherState) : MatcherView :=
  ⟨state.candidates.map Candidate.id, state.rules.map (·.name)⟩

namespace MatcherSession

variable {ts : TypeSystem} {s : MatcherSession} {watcher : SubscriptionId}

theorem fresh_step (hs : s.matcher.state.Fresh) (around : Surroundings) (call : MatcherCall) :
    (s.step ts around call).2.matcher.state.Fresh := by
  rw [s.state_step ts around call]
  exact hs.after call

/-- The event of a call makes the view from before that from after. Candidates have identifiers of
their own, so one of them is all that goes with its identifier. -/
theorem replay_event (hs : s.matcher.state.Fresh) (around : Surroundings) {call : MatcherCall}
    {e : MatcherEvent} (he : call.event? s.matcher = some e) :
    s.matcher.state.view.replay e = (s.step ts around call).2.matcher.state.view := by
  rw [s.state_step ts around call]
  cases call with
  | register source constraints priority =>
    cases he
    simp only [MatcherState.view, MatcherView.replay, MatcherState.after, List.map_append,
      List.map_cons, List.map_nil]
    rfl
  | unregister id =>
    obtain ⟨-, hevent⟩ := Option.ite_none_right_eq_some.mp he
    cases hevent
    simp only [MatcherState.view, MatcherView.replay, MatcherState.after,
      hs.nodup.erase_eq_filter, List.filter_map]
    rfl
  | addRule rule =>
    cases he
    simp only [MatcherState.view, MatcherView.replay, MatcherState.after, List.map_append,
      List.map_cons, List.map_nil]
  | removeRule name =>
    obtain ⟨-, hevent⟩ := Option.ite_none_right_eq_some.mp he
    cases hevent
    simp only [MatcherState.view, MatcherView.replay, MatcherState.after, List.filter_map]
    rfl
  | _ => cases he

/-- The events of a run, replayed, lead from the view at its start to that at its end. -/
theorem foldl_replay_eventsOf (hs : s.matcher.state.Fresh)
    (hw : s.matcher.subscribers.Watches watcher) {around : Nat → Surroundings}
    (hspares : ∀ turn, (around turn).Spares watcher) (calls : List MatcherCall) :
    (s.eventsOf ts around watcher calls).foldl MatcherView.replay s.matcher.state.view =
      (s.run ts around calls).2.matcher.state.view := by
  induction calls generalizing s around with
  | nil => rfl
  | cons call rest ih =>
    have hcall : (call.event? s.matcher).toList.foldl MatcherView.replay s.matcher.state.view =
        (s.step ts (around 0) call).2.matcher.state.view := by
      cases he : call.event? s.matcher with
      | none => exact congrArg MatcherState.view ((event?_eq_none_iff _ call).mp he).symm
      | some e => exact replay_event hs _ he
    rw [eventsOf, heard_deliveries hw, List.foldl_append, hcall]
    exact ih (fresh_step hs _ call) (watches_step hw (hspares 0) call) fun turn =>
      hspares (turn + 1)

end MatcherSession

/-! ### Identifiers -/

def MatcherEvent.registered? : MatcherEvent → Option CandidateId
  | .registered id => some id
  | _ => none

def MatcherAnswer.registered? : MatcherAnswer → Option CandidateId
  | .registered id => some id
  | _ => none

namespace MatcherSession

variable {ts : TypeSystem} {s : MatcherSession} {watcher : SubscriptionId}

/-- The identifier that a call hands out is the one that its event has. -/
theorem registered?_step (around : Surroundings) (call : MatcherCall) :
    (s.step ts around call).1.registered? =
      (call.event? s.matcher).bind MatcherEvent.registered? := by
  cases call with
  | unregister id =>
    rw [MatcherCall.event?]
    split <;> rfl
  | removeRule name =>
    rw [MatcherCall.event?]
    split <;> rfl
  | _ => rfl

theorem nextId_step (s : MatcherSession) (ts : TypeSystem) (around : Surroundings)
    (call : MatcherCall) :
    ((s.step ts around call).1.registered? = none ∧
        (s.step ts around call).2.matcher.nextId = s.matcher.nextId) ∨
      (s.step ts around call).1.registered? = some s.matcher.nextId ∧
        (s.step ts around call).2.matcher.nextId = s.matcher.nextId + 1 := by
  have hnext : (s.step ts around call).2.matcher.nextId =
      (s.matcher.state.after call).nextId :=
    congrArg MatcherState.nextId (s.state_step ts around call)
  rw [hnext]
  cases call with
  | register source constraints priority => exact .inr ⟨rfl, rfl⟩
  | _ => exact .inl ⟨rfl, rfl⟩

theorem filterMap_registered?_eventsOf (hw : s.matcher.subscribers.Watches watcher)
    {around : Nat → Surroundings} (hspares : ∀ turn, (around turn).Spares watcher)
    (calls : List MatcherCall) :
    (s.eventsOf ts around watcher calls).filterMap MatcherEvent.registered? =
      (s.run ts around calls).1.filterMap MatcherAnswer.registered? := by
  induction calls generalizing s around with
  | nil => rfl
  | cons call rest ih =>
    have hnext : (s.step ts (around 0) call).2.matcher.subscribers.Watches watcher :=
      watches_step hw (hspares 0) call
    have hrest := ih hnext fun turn => hspares (turn + 1)
    rw [eventsOf, heard_deliveries hw, List.filterMap_append, hrest, run, List.filterMap_cons,
      registered?_step]
    cases call.event? s.matcher with
    | none => rfl
    | some e => cases e <;> rfl

/-- Identifiers are handed out in a row. -/
theorem exists_range'_registered? (s : MatcherSession) (ts : TypeSystem)
    (around : Nat → Surroundings) (calls : List MatcherCall) :
    ∃ n, (s.run ts around calls).1.filterMap MatcherAnswer.registered? =
      List.range' s.matcher.nextId n := by
  induction calls generalizing s around with
  | nil => exact ⟨0, rfl⟩
  | cons call rest ih =>
    obtain ⟨n, hn⟩ := ih (s.step ts (around 0) call).2 fun turn => around (turn + 1)
    rw [run, List.filterMap_cons]
    obtain ⟨hnone, hnext⟩ | ⟨hsome, hnext⟩ := nextId_step s ts (around 0) call
    · rw [hnext] at hn
      rw [hnone]
      exact ⟨n, hn⟩
    · rw [hnext] at hn
      rw [hsome]
      exact ⟨n + 1, congrArg (s.matcher.nextId :: ·) hn⟩

/-- A subscriber that stays hears of each call that changes rules or candidates once, and of no
other call. What it hears in a run, replayed from the start, gives the identifiers of the candidates
and the names of the rules in their order. The identifiers that it hears of are those that the
registrations give, none of them twice and none that was there before. All this is so whatever other
subscribers do to the list, as long as they leave this one alone. -/
theorem replay_eventsOf (ts : TypeSystem) (around : Nat → Surroundings)
    (hs : s.matcher.state.Fresh) (hw : s.matcher.subscribers.Watches watcher)
    (hspares : ∀ turn, (around turn).Spares watcher) (calls : List MatcherCall) :
    (∀ now call,
      heard watcher ((s.run ts around calls).2.deliveries now call) =
          (call.event? (s.run ts around calls).2.matcher).toList ∧
        (call.event? (s.run ts around calls).2.matcher = none ↔
          ((s.run ts around calls).2.step ts now call).2.matcher.state =
            (s.run ts around calls).2.matcher.state)) ∧
    (s.eventsOf ts around watcher calls).foldl MatcherView.replay s.matcher.state.view =
      (s.run ts around calls).2.matcher.state.view ∧
    (s.eventsOf ts around watcher calls).filterMap MatcherEvent.registered? =
      (s.run ts around calls).1.filterMap MatcherAnswer.registered? ∧
    (s.matcher.state.view.ids ++
      (s.run ts around calls).1.filterMap MatcherAnswer.registered?).Nodup := by
  refine ⟨fun now call => ⟨heard_deliveries (watches_run hw hspares calls) now call,
      event?_eq_none_iff now call⟩, foldl_replay_eventsOf hs hw hspares calls,
    filterMap_registered?_eventsOf hw hspares calls, ?_⟩
  obtain ⟨n, hn⟩ := exists_range'_registered? s ts around calls
  rw [hn]
  refine List.nodup_append.mpr ⟨hs.nodup, List.nodup_range', fun i hi j hj => ?_⟩
  obtain ⟨c, hc, rfl⟩ := List.mem_map.mp hi
  exact Nat.ne_of_lt (Nat.lt_of_lt_of_le (hs.lt c hc) (List.mem_range'_1.mp hj).1)

namespace Sample

/-- A new matcher with four subscribers. -/
def watched : MatcherSession :=
  ⟨(Matcher.new true).subscribe.2.subscribe.2.subscribe.2.subscribe.2, []⟩

/-- The second subscriber stays. Of the others one goes at once, one takes it off the list again,
and one brings a new subscriber along each time. -/
def restless : Surroundings := ⟨firstFree, firstFree_not_mem, fun id =>
  if id = 0 ∨ id = 2 then [.unsubscribe 0] else if id = 3 then [.subscribe] else []⟩

/-- Each kind of change with and without an effect; two rules go by one name. -/
def changes : List MatcherCall :=
  [.addRule .exact, .removeRule "exact", .removeRule "exact", .register .bool [.int] 0,
    .unregister 7, .unregister 0, .unregister 0, .register .bool [.int] 0]

end Sample

theorem replay_eventsOf_changes :
    Sample.watched.matcher.state.Fresh ∧ Sample.watched.matcher.subscribers.Watches 1 ∧
    Sample.restless.Spares 1 ∧
    Sample.watched.eventsOf MatchRule.Sample.pairTypes (fun _ => Sample.restless) 1
      Sample.changes = [.ruleAdded "exact", .ruleRemoved "exact", .registered 0, .unregistered 0,
        .registered 1] ∧
    (Sample.watched.run MatchRule.Sample.pairTypes (fun _ => Sample.restless)
      Sample.changes).2.matcher.state.view = ⟨[1], ["generic-constraint", "nested-decomposition"]⟩ ∧
    (Sample.watched.run MatchRule.Sample.pairTypes (fun _ => Sample.restless)
      Sample.changes).1.filterMap MatcherAnswer.registered? = [0, 1] := by
  have hfresh : Sample.watched.matcher.state.Fresh := ⟨List.nodup_nil, nofun⟩
  have hwatches : Sample.watched.matcher.subscribers.Watches 1 := ⟨rfl, by decide⟩
  have hspares : Sample.restless.Spares 1 := by
    intro other hother
    simp only [Sample.restless] at hother
    split at hother
    · simp at hother
    · split at hother <;> simp at hother
  have hevents : Sample.watched.eventsOf MatchRule.Sample.pairTypes (fun _ => Sample.restless) 1
      Sample.changes = [.ruleAdded "exact", .ruleRemoved "exact", .registered 0, .unregistered 0,
        .registered 1] := by
    decide +kernel
  obtain ⟨-, hview, hids, -⟩ := replay_eventsOf MatchRule.Sample.pairTypes
    (fun _ => Sample.restless) hfresh hwatches (fun _ => hspares) Sample.changes
  refine ⟨hfresh, hwatches, hspares, hevents, ?_, ?_⟩
  · rw [← hview, hevents]
    rfl
  · rw [← hids, hevents]
    rfl

end MatcherSession

end Introspect

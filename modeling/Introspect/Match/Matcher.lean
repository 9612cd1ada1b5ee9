import Introspect.KeyedMap
import Introspect.Match.Ranking
import Introspect.Shared
import Introspect.Subscribers

/-!
A matcher: rules and candidates with caches of what they gave, emptied by every change. Subscribers
hear of each change that has an effect; a subscriber that calls the matcher in reaction to it is not
considered. Results come as shared arrays, and whoever calls the matcher says where a new one goes:
at an address that nobody uses, neither the caller nor one of the caches.
-/

namespace Introspect

inductive MatcherEvent where
  | registered (id : CandidateId)
  | unregistered (id : CandidateId)
  | ruleAdded (name : String)
  | ruleRemoved (name : String)
  deriving DecidableEq

/-- An event as it reaches a subscriber. -/
abbrev Delivery := SubscriptionId × MatcherEvent

abbrev MatchResults := Shared (List MatchResult)

/-- How many changes with an effect there were, modulo `2 ^ 64`. -/
abbrev Epoch := UInt64

structure CachedMatches where
  epoch : Epoch
  results : MatchResults

/-- A merge goes by the addresses of the arrays that were merged. They are kept with it, so that
these addresses stay theirs. -/
structure CachedMerge where
  epoch : Epoch
  inputs : List MatchResults
  merged : MatchResults

/-- Whether the arrays that were merged are these, and not merely equal ones. -/
def CachedMerge.isOf (kept : CachedMerge) (inputs : List MatchResults) : Bool :=
  kept.inputs.length == inputs.length && (kept.inputs.zip inputs).all fun (a, b) => a.isSame b

structure Matcher where
  isCaching : Bool
  rules : List MatchRule
  candidates : List Candidate
  nextId : CandidateId
  epoch : Epoch
  tuples : KeyedMap (List Ty) CachedMatches
  merges : KeyedMap (List Address) CachedMerge
  subscribers : Subscribers

/-- The answer to a call, the events that it sends and the matcher after it. -/
structure MatcherOutcome (α : Type) where
  answer : α
  deliveries : List Delivery
  matcher : Matcher

namespace Matcher

def withRules (rules : List MatchRule) (isCaching : Bool) : Matcher :=
  ⟨isCaching, rules, [], 0, 0, .empty, .empty, .empty⟩

def new (isCaching : Bool) : Matcher := withRules MatchRule.defaults isCaching

def ruleNames (m : Matcher) : List String := m.rules.map (·.name)

def cachedTuples (m : Matcher) : Nat := m.tuples.size

/-- The arrays that the caches keep in use. -/
def keptArrays (m : Matcher) : List MatchResults :=
  (m.tuples.entries.map fun (_, kept) => kept.results) ++
    m.merges.entries.flatMap fun (_, kept) => kept.merged :: kept.inputs

/-! ### Changes -/

/-- Puts a change into effect. If there is one, a new epoch begins with empty caches, and the
subscribers are notified. -/
def mutate (changed : Matcher) (reactions : Reactions) (event : MatcherEvent) (hasEffect : Bool) :
    MatcherOutcome Bool :=
  if hasEffect then
    let (notified, subscribers) := changed.subscribers.notify reactions
    ⟨true, notified.map fun id => (id, event), { changed with
      epoch := changed.epoch + 1
      tuples := .empty
      merges := .empty
      subscribers := subscribers }⟩
  else ⟨false, [], changed⟩

/-- Registers a candidate under the next identifier. -/
def register (m : Matcher) (reactions : Reactions) (source : Ty) (constraints : List Ty)
    (priority : Int) : MatcherOutcome CandidateId :=
  let c : Candidate := ⟨m.nextId, source, constraints, priority⟩
  let grown := { m with candidates := m.candidates ++ [c], nextId := m.nextId + 1 }
  { grown.mutate reactions (.registered c.id) true with answer := c.id }

/-- Removes a candidate, and tells whether it was there. -/
def unregister (m : Matcher) (reactions : Reactions) (id : CandidateId) : MatcherOutcome Bool :=
  let rest := m.candidates.filter fun c => c.id != id
  let shrunk := { m with candidates := rest }
  shrunk.mutate reactions (.unregistered id) (rest.length != m.candidates.length)

def addRule (m : Matcher) (reactions : Reactions) (rule : MatchRule) : MatcherOutcome Unit :=
  let grown := { m with rules := m.rules ++ [rule] }
  { grown.mutate reactions (.ruleAdded rule.name) true with answer := () }

/-- Removes all rules of a name, and tells whether there were any. -/
def removeRule (m : Matcher) (reactions : Reactions) (name : String) : MatcherOutcome Bool :=
  if m.ruleNames.contains name then
    let rest := m.rules.filter fun r => r.name != name
    let shrunk := { m with rules := rest }
    shrunk.mutate reactions (.ruleRemoved name) (rest.length != m.rules.length)
  else ⟨false, [], m⟩

def subscribe (m : Matcher) : SubscriptionId × Matcher :=
  let (id, subscribers) := m.subscribers.subscribe
  (id, { m with subscribers := subscribers })

def unsubscribe (m : Matcher) (id : SubscriptionId) : Bool × Matcher :=
  let (wasThere, subscribers) := m.subscribers.unsubscribe id
  (wasThere, { m with subscribers := subscribers })

/-! ### Results -/

def compute (ts : TypeSystem) (m : Matcher) (targets : List Ty) : List MatchResult :=
  MatchResult.ranked (MatchResult.found ts m.rules m.candidates targets)

/-- All results for the targets, the highest priority first. -/
def getMatches (ts : TypeSystem) (fresh : Address) (targets : List Ty) (m : Matcher) :
    MatchResults × Matcher :=
  if m.isCaching then
    match (m.tuples.find? targets).filter fun kept => kept.epoch == m.epoch with
    | some hit => (hit.results, m)
    | none =>
      -- Nothing changes the matcher meanwhile, so the results are still those of its epoch.
      let results := ⟨fresh, m.compute ts targets⟩
      (results, { m with tuples := m.tuples.insert targets ⟨m.epoch, results⟩ })
  else (⟨fresh, m.compute ts targets⟩, m)

def bestMatch (ts : TypeSystem) (fresh : Address) (targets : List Ty) (m : Matcher) :
    Option MatchResult × Matcher :=
  let (results, m) := m.getMatches ts fresh targets
  (results.value.head?, m)

/-- Merges arrays into one. The same arrays are merged only once in an epoch. -/
def merge (fresh : Address) (inputs : List MatchResults) (m : Matcher) : MatchResults × Matcher :=
  if m.isCaching then
    let key := inputs.map (·.address)
    match (m.merges.find? key).filter fun kept => kept.epoch == m.epoch && kept.isOf inputs with
    | some hit => (hit.merged, m)
    | none =>
      let merged := ⟨fresh, MatchResult.merge (inputs.map (·.value))⟩
      (merged, { m with merges := m.merges.insert key ⟨m.epoch, inputs, merged⟩ })
  else (⟨fresh, MatchResult.merge (inputs.map (·.value))⟩, m)

end Matcher

end Introspect

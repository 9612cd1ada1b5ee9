import Introspect.Match.Matcher

/-!
A matcher in use. Calls come one after another, arrays that were handed out are held until they are
dropped, and a new array may go to any address that is free by then.
-/

namespace Introspect

/-- What is around a matcher during a call: where a new array goes, given the addresses in use, and
what subscribers do when they are notified. -/
structure Surroundings where
  place : List Address → Address
  place_not_mem : ∀ used, place used ∉ used
  reactions : Reactions

/-- What is asked of a matcher. Arrays go by the turns at which they were handed out. -/
inductive MatcherCall where
  | register (source : Ty) (constraints : List Ty) (priority : Int)
  | unregister (id : CandidateId)
  | addRule (rule : MatchRule)
  | removeRule (name : String)
  | getMatches (targets : List Ty)
  | bestMatch (targets : List Ty)
  | merge (turns : List Nat)
  /-- Results that come from elsewhere, as an array to merge with. -/
  | bring (results : List MatchResult)
  /-- An array is not held any longer. -/
  | drop (turn : Nat)

inductive MatcherAnswer where
  | done
  | registered (id : CandidateId)
  | changed (hasEffect : Bool)
  | results (results : List MatchResult)
  | best (result : Option MatchResult)

/-- A matcher in use, with what is held of the arrays that were handed out. -/
structure MatcherSession where
  matcher : Matcher
  arrays : List (Option MatchResults)

namespace MatcherSession

def start (rules : List MatchRule) (isCaching : Bool) : MatcherSession :=
  ⟨.withRules rules isCaching, []⟩

/-- The arrays that are in use, here or in a cache. -/
def live (s : MatcherSession) : List MatchResults := s.arrays.filterMap id ++ s.matcher.keptArrays

/-- Where a new array goes. -/
def fresh (s : MatcherSession) (around : Surroundings) : Address :=
  around.place (s.live.map (·.address))

/-- The arrays of some turns that are still held. -/
def pick (s : MatcherSession) (turns : List Nat) : List MatchResults :=
  turns.filterMap fun turn => s.arrays[turn]?.join

def handOut (s : MatcherSession) (out : MatchResults × Matcher) : MatcherAnswer × MatcherSession :=
  (.results out.1.value, ⟨out.2, s.arrays ++ [some out.1]⟩)

def settle {α : Type} (s : MatcherSession) (answer : α → MatcherAnswer) (out : MatcherOutcome α) :
    MatcherAnswer × MatcherSession :=
  (answer out.answer, { s with matcher := out.matcher })

def step (ts : TypeSystem) (around : Surroundings) (s : MatcherSession) :
    MatcherCall → MatcherAnswer × MatcherSession
  | .register source constraints priority =>
    s.settle .registered (s.matcher.register around.reactions source constraints priority)
  | .unregister id => s.settle .changed (s.matcher.unregister around.reactions id)
  | .addRule rule => s.settle (fun _ => .done) (s.matcher.addRule around.reactions rule)
  | .removeRule name => s.settle .changed (s.matcher.removeRule around.reactions name)
  | .getMatches targets => s.handOut (s.matcher.getMatches ts (s.fresh around) targets)
  | .bestMatch targets =>
    let (best, m) := s.matcher.bestMatch ts (s.fresh around) targets
    (.best best, { s with matcher := m })
  | .merge turns => s.handOut (s.matcher.merge (s.fresh around) (s.pick turns))
  | .bring results => s.handOut (⟨s.fresh around, results⟩, s.matcher)
  | .drop turn => (.done, { s with arrays := s.arrays.set turn none })

/-- The answers to calls, one after another, and the session after them, with what is around the
matcher at each of them. -/
def run (ts : TypeSystem) (around : Nat → Surroundings) (s : MatcherSession) :
    List MatcherCall → List MatcherAnswer × MatcherSession
  | [] => ([], s)
  | call :: rest =>
    let now := s.step ts (around 0) call
    let later := run ts (fun turn => around (turn + 1)) now.2 rest
    (now.1 :: later.1, later.2)

end MatcherSession

end Introspect

import Introspect.Match.Rule

/-!
Results in their order: by descending priority, those of one priority in the order in which they
were found. Merging keeps the first result of each candidate and resolved type.
-/

namespace Introspect.MatchResult

def ranked (results : List MatchResult) : List MatchResult :=
  results.mergeSort fun a b => b.priority <= a.priority

/-- All pairs of a rule and a candidate that match, by rule and then by candidate. -/
def found (ts : TypeSystem) (rules : List MatchRule) (candidates : List Candidate)
    (targets : List Ty) : List MatchResult :=
  rules.flatMap fun rule => candidates.filterMap fun c =>
    if c.arity == targets.length && rule.canMatch ts c targets then
      match rule.resolve ts c targets with
      | .ok resolved => some ⟨c, resolved, targets, rule.name⟩
      | .error _ => none
    else none

def hasKeyOf (a b : MatchResult) : Bool :=
  a.candidate.id == b.candidate.id && a.resolved == b.resolved

/-- Keeps the first of the results with one key. -/
def distinct : List MatchResult → List MatchResult → List MatchResult
  | _, [] => []
  | kept, r :: rest =>
    if kept.any (hasKeyOf r) then distinct kept rest else r :: distinct (r :: kept) rest

def merge (results : List (List MatchResult)) : List MatchResult :=
  distinct [] (ranked results.flatten)

end Introspect.MatchResult

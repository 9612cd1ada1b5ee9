import Introspect.Ty.Order

/-!
Candidates of a match and the results they give. A candidate has one constraint for each target,
and its constraints may mention the generic parameters of its source.
-/

namespace Introspect

/-- Candidates are numbered from 0 on, in the order of their registration. A count of 64 bits would
wrap after `2 ^ 64` of them, which no run reaches. -/
abbrev CandidateId := Nat

structure Candidate where
  id : CandidateId
  source : Ty
  constraints : List Ty
  priority : Int

namespace Candidate

def label (id : CandidateId) : String := s!"candidate#{id}"

def arity (c : Candidate) : Nat := c.constraints.length

def isOpen (c : Candidate) : Bool := c.source.isOpen

def text (c : Candidate) : String :=
  let slots := ", ".intercalate (c.constraints.map Ty.text)
  s!"{c.source} for ({slots}) @{c.priority}"

def same (c d : Candidate) : Bool :=
  c.id == d.id && c.source == d.source && c.constraints == d.constraints && c.priority == d.priority

instance : BEq Candidate := ⟨same⟩

end Candidate

structure MatchResult where
  candidate : Candidate
  resolved : Ty
  targets : List Ty
  rule : String

namespace MatchResult

def priority (r : MatchResult) : Int := r.candidate.priority

def same (r s : MatchResult) : Bool :=
  r.candidate == s.candidate && r.resolved == s.resolved && r.targets == s.targets &&
    r.rule == s.rule

instance : BEq MatchResult := ⟨same⟩

end MatchResult

end Introspect

import Introspect.Generic.OpenType
import Introspect.Match.Candidate

/-!
Rules of matching. A rule says cheaply whether it applies to a candidate, and then finds the
concrete type that the candidate stands for.
-/

namespace Introspect

structure MatchRule where
  name : String
  canMatch : TypeSystem → Candidate → List Ty → Bool
  resolve : TypeSystem → Candidate → List Ty → Except Error Ty

namespace MatchRule

/-- The position of a slot that is a bare parameter of the candidate's own definition. -/
def ownPosition? (source slot : Ty) : Option Nat := do
  let owner ← source.definitionName?
  let p ← slot.param?
  if p.owner == owner then some p.index else none

/-- Closed candidates whose slots are the targets. -/
def exact : MatchRule where
  name := "exact"
  canMatch _ c targets := !c.isOpen && c.constraints == targets
  resolve _ c _ := .ok c.source

/-! ### Slots that are parameters -/

/-- Binds the slots that are parameters of the candidate to their targets. -/
def bindSlots (ts : TypeSystem) (source : Ty) (o : OpenType) :
    List (Ty × Ty) → Except Error OpenType
  | [] => .ok o
  | (slot, target) :: rest =>
    match ownPosition? source slot with
    | none => bindSlots ts source o rest
    | some position =>
      match o.arguments[position]?.join with
      | some bound =>
        if bound == target then bindSlots ts source o rest
        else .error (.typeMismatch bound.text target.text)
      | none => do bindSlots ts source (← o.withArgument ts position target) rest

/-- Open candidates whose slots are closed types, equal to their targets, or bare parameters of the
candidate, bound to theirs. -/
def genericConstraint : MatchRule where
  name := "generic-constraint"
  canMatch _ c targets := c.isOpen && (c.constraints.zip targets).all fun (slot, target) =>
    (ownPosition? c.source slot).isSome || (!slot.isOpen && slot == target)
  resolve ts c targets := do
    let o ← OpenType.ofTy ts c.source
    (← bindSlots ts c.source o (c.constraints.zip targets)).solve ts

/-! ### Slots with parameters inside -/

/-- Substitutes the bindings of parameters of the definition that are still open. -/
def bindNested (ts : TypeSystem) (o : OpenType) : List (TyParam × Ty) → Except Error OpenType
  | [] => .ok o
  | (p, t) :: rest =>
    if p.owner == o.definition.name && (o.arguments[p.index]?.any Option.isNone) then do
      bindNested ts (← o.withArgument ts p.index t) rest
    else bindNested ts o rest

/-- Open candidates with a single slot that has parameters inside, which the closed target or one of
its supertypes binds. -/
def nestedDecomposition : MatchRule where
  name := "nested-decomposition"
  canMatch _ c targets :=
    match c.constraints, targets with
    | [slot], [target] => c.isOpen && slot.isOpen && (ownPosition? c.source slot).isNone &&
        !slot.isParam && !target.isOpen
    | _, _ => false
  resolve ts c targets :=
    match c.constraints, targets with
    | [slot], [target] =>
      match ts.unifyAssignable .empty slot target with
      | none => .error (.typeMismatch slot.text target.text)
      | some bindings => do
        let o ← OpenType.ofTy ts c.source
        (← bindNested ts o bindings.entries).solve ts
    | _, _ => .error (.generic "nested-decomposition decomposes exactly one target")

/-! ### Rules for closed candidates -/

def anyClosed : MatchRule where
  name := "any-closed"
  canMatch _ c _ := !c.isOpen
  resolve _ c _ := .ok c.source

def alwaysFail : MatchRule where
  name := "always-fail"
  canMatch _ c _ := !c.isOpen
  resolve _ _ _ := .error (.generic "always fails")

def defaults : List MatchRule := [exact, genericConstraint, nestedDecomposition]

/-- A rule by its name. -/
def named? (name : String) : Option MatchRule :=
  (defaults ++ [anyClosed, alwaysFail]).find? fun r => r.name == name

end MatchRule

end Introspect

import Introspect.Unify

/-!
One generic parameter of a definition: checks of its constraints, and its inference from a known
argument of another parameter whose constraints mention it.
-/

namespace Introspect

structure Parameter where
  param : TyParam
  special : SpecialConstraints
  constraints : List Ty
  /-- The positions of the parameters that its constraints mention. -/
  dependsOn : List Nat
  /-- The positions of the parameters whose constraints mention it. -/
  dependedOnBy : List Nat

namespace Parameter

def name (p : Parameter) : String := p.param.name

def position (p : Parameter) : Nat := p.param.index

def mentionedBy (d : TypeDef) (p : TyParam) (position : Nat) : Bool :=
  (d.params[position]?.map fun q => q.constraints.any fun c => c.mentions p).getD false

/-- The parameter of a definition at a position below the number of its parameters. -/
def ofDeclared (d : TypeDef) (declared : GenericParam) (position : Nat) : Parameter :=
  let others := (List.range d.params.length).filter (· != position)
  { param := ⟨d.name, position, declared.name⟩
    special := declared.special
    constraints := declared.constraints
    dependsOn := others.filter fun other => mentionedBy d (d.param other) position
    dependedOnBy := others.filter fun other => mentionedBy d (d.param position) other }

def ofDefinition (d : TypeDef) (position : Nat) : Except Error Parameter :=
  match d.params[position]? with
  | some declared => .ok (ofDeclared d declared position)
  | none => .error (.typeResolution d.name
      s!"has {d.params.length} generic parameter(s), no position {position}")

/-- All parameters of a definition. -/
def all (d : TypeDef) : List Parameter := d.params.zipIdx.map fun (p, i) => ofDeclared d p i

section

variable (ts : TypeSystem)

/-! ### Checks -/

def specialViolation? (p : Parameter) (candidate : Ty) : Option String :=
  if p.special.referenceType && !ts.isReferenceType candidate then
    some "must be a reference type"
  else if p.special.valueType && !ts.isValueType candidate then some "must be a value type"
  else if p.special.defaultConstructor && !ts.hasDefaultConstructor candidate then
    some "must have a parameterless constructor"
  else none

/-- Whether a candidate converts to a constraint, whose open parameters may be anything. -/
def meets (constraint candidate : Ty) : Bool :=
  if constraint.isOpen then (ts.unifyAssignable .empty constraint candidate).isSome
  else ts.isAssignable constraint candidate

/-- Why a candidate is refused. Known parameters stand for their types, and the parameter itself
for the candidate. -/
def violation? (p : Parameter) (candidate : Ty) (known : Bindings) : Option String :=
  match p.specialViolation? ts candidate with
  | some reason => some reason
  | none =>
    let bindings := known.insert p.param candidate
    let applied := p.constraints.map fun c => c.apply bindings
    (applied.find? fun c => !meets ts c candidate).map fun c => s!"must convert to `{c}`"

def satisfies (p : Parameter) (candidate : Ty) (known : Bindings) : Bool :=
  (p.violation? ts candidate known).isNone

def check (p : Parameter) (candidate : Ty) (known : Bindings) : Except Error Unit :=
  match p.violation? ts candidate known with
  | none => .ok ()
  | some reason => .error (.constraintUnsatisfied p.name candidate.text reason)

/-! ### Inference -/

/-- The closed type that the parameter must have for a known argument of a dependent parameter to
convert to the first constraint that tells. -/
def inferFrom? (p dependent : Parameter) (concrete : Ty) (known : Bindings) : Option Ty :=
  -- The parameter itself stays open in the constraint, for unification to bind it.
  let bindings := (known.erase p.param).insert dependent.param concrete
  (dependent.constraints.filter fun c => c.mentions p.param).findSome? fun c => do
    let inferred ← ts.unifyAssignable .empty (c.apply bindings) concrete
    let t ← inferred.find? p.param
    if t.isOpen then none else some t

end

/-- The parameter with its constraints. -/
def describe (p : Parameter) : String :=
  if p.constraints.isEmpty then p.name
  else p.name ++ ": " ++ " + ".intercalate (p.constraints.map Ty.text)

end Parameter

end Introspect

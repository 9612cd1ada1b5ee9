import Introspect.Bindings
import Introspect.TypeSystem

/-!
Unification of an open pattern with a concrete type. Type arguments are invariant; supertypes of the
concrete type are looked through only at the outermost level.
-/

namespace Introspect

mutual

/-- Binds the parameters of the pattern so that it equals the concrete type. Bound parameters must
agree with their types. -/
def Ty.unify (b : Bindings) : Ty → Ty → Option Bindings
  | .param p, t =>
    match b.find? p with
    | some bound => if bound == t then some b else none
    | none => some (b.insert p t)
  | .array p, .array t => Ty.unify b p t
  | .named n ps, .named m ts => if n == m then Ty.unifyAll b ps ts else none
  | _, _ => none

def Ty.unifyAll (b : Bindings) : List Ty → List Ty → Option Bindings
  | [], [] => some b
  | p :: ps, t :: ts =>
    match Ty.unify b p t with
    | some b => Ty.unifyAll b ps ts
    | none => none
  | _, _ => none

end

/-- Unification up to a conversion of the concrete type to the pattern. A closed pattern binds
nothing, and a bare parameter takes the concrete type itself. -/
def TypeSystem.unifyAssignable (ts : TypeSystem) (b : Bindings) (pattern concrete : Ty) :
    Option Bindings :=
  if pattern.isOpen then
    if pattern.isParam then Ty.unify b pattern concrete
    else (ts.supertypes concrete).findSome? (Ty.unify b pattern)
  else if ts.isAssignable pattern concrete then some b
  else none

end Introspect

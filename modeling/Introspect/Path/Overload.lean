import Introspect.TypeSystem

/-!
Overloads: the first method under a name whose parameters accept the types of the arguments, and
the report when there is none.
-/

namespace Introspect.Overload

variable (ts : TypeSystem)

/-- The first position at which a method does not accept the arguments. -/
def mismatch? (m : MethodInfo) (argTypes : List Ty) : Option Nat :=
  (m.params.zip argTypes).findIdx? fun (p, arg) => !ts.isAssignable p.ty arg

def accepts (m : MethodInfo) (argTypes : List Ty) : Bool :=
  m.arity == argTypes.length && (mismatch? ts m argTypes).isNone

/-- Reports the first mismatch of the first method with the right number of parameters, or that
none has it. -/
def mismatchError (owner : Ty) (name : String) (methods : List MethodInfo) (argTypes : List Ty) :
    Error :=
  let report? := methods.findSome? fun m =>
    if m.arity == argTypes.length then
      (mismatch? ts m argTypes).map fun index =>
        let expected := (m.params[index]?.map fun p => p.ty.text).getD ""
        let found := (argTypes[index]?.map Ty.text).getD ""
        (index, s!"`{m.signature}` expects `{expected}` but got `{found}`")
    else none
  let method := s!"{owner}.{name}"
  match report? with
  | some (index, reason) => .overloadMismatch method (some index) reason
  | none =>
    let signatures := ", ".intercalate (methods.map MethodInfo.signature)
    .overloadMismatch method none
      s!"no overload takes {argTypes.length} argument(s); candidates: {signatures}"

def select (owner : Ty) (name : String) (members : List Member) (argTypes : List Ty) :
    Except Error MethodInfo :=
  let methods := members.filterMap Member.method?
  if methods.isEmpty then .error (.memberNotFound owner.text name)
  else
    match methods.find? fun m => accepts ts m argTypes with
    | some m => .ok m
    | none => .error (mismatchError ts owner name methods argTypes)

end Introspect.Overload

import Introspect.Path.Overload
import Introspect.Path.Segment
import Introspect.Path.Step

/-!
Compiled paths: a path text whose segments are resolved, one after the other, against a root type.
-/

namespace Introspect

structure CompiledPath where
  root : Ty
  text : String
  isStatic : Bool
  steps : List PathStep

namespace CompiledPath

/-- The type that a path starting at `root` ends at. -/
def endTy (root : Ty) (steps : List PathStep) : Ty := (steps.getLast?.map (·.resultTy)).getD root

def resultTy (p : CompiledPath) : Ty := endTy p.root p.steps

/-! ### Resolution -/

/-- How names are resolved: whether a method that is only named is called without arguments. -/
structure Rules where
  implicitCalls : Bool
  deriving DecidableEq

section

variable (ts : TypeSystem) (rules : Rules)

def callStep (owner : Ty) (name : String) (members : List Member) (args : List Value)
    (isStatic : Bool) : Except Error PathStep :=
  (Overload.select ts owner name members (args.map (Value.typeOf .empty))).map fun m =>
    .member (.method m args) isStatic

/-- A segment with arguments is a call. Otherwise fields go before properties, and properties
before methods. -/
def memberStep (owner : Ty) (segment : Segment) (isStatic : Bool) (path : String) :
    Except Error PathStep :=
  let name := segment.name
  let members := ts.findMembers owner name (.of isStatic)
  match segment.args? with
  | some args => callStep ts owner name members args isStatic
  | none =>
    match members.findSome? Member.field? with
    | some f => .ok (.member (.field f) isStatic)
    | none =>
      match members.findSome? Member.property? with
      | some p => .ok (.member (.property p) isStatic)
      | none =>
        if members.isEmpty then .error (.memberNotFound owner.text name)
        else if rules.implicitCalls then callStep ts owner name members [] isStatic
        else .error (.parse path s!"`{name}` is a method; call it as `{name}()`")

/-- The first step of a static path has to be a static member. -/
def firstStaticStep (owner : Ty) (segment : Segment) (path : String) : Except Error PathStep :=
  match memberStep ts rules owner segment true path with
  | .error (.memberNotFound ..) =>
    .error (.parse path s!"`{segment.name}` is not a static member of `{owner}`")
  | step => step

def indexStep (owner : Ty) (index : Nat) (path : String) : Except Error PathStep :=
  match ts.indexKind? owner with
  | some (.array elem) => .ok (.arrayElement index elem)
  | some (.typedList elem) => .ok (.typedElement index elem)
  | some .untypedList => .ok (.untypedElement index)
  | none => .error (.parse path s!"`{owner}` is not indexable")

def indexSteps (path : String) : Ty → List Nat → Except Error (List PathStep)
  | _, [] => .ok []
  | owner, index :: rest => do
    let step ← indexStep ts owner index path
    return step :: (← indexSteps path step.resultTy rest)

/-- The steps of one segment: its member, then its indices. -/
def segmentSteps (path : String) (isStatic : Bool) (owner : Ty) (segment : Segment) :
    Except Error (List PathStep) := do
  let step ←
    if isStatic then firstStaticStep ts rules owner segment path
    else memberStep ts rules owner segment false path
  return step :: (← indexSteps ts path step.resultTy segment.indices)

/-- Parses and resolves raw segments, each against the type where the one before it ends. -/
def resolve (path : String) (isStatic : Bool) (owner : Ty) :
    List String → Except Error (List PathStep)
  | [] => .ok []
  | raw :: rest => do
    let segment ← Segment.parse path raw
    let steps ← segmentSteps ts rules path isStatic owner segment
    -- Behind the first segment every member is one of an instance.
    return steps ++ (← resolve path false (endTy owner steps) rest)

/-- Compiles a path against a root type. In a static path the first segment names a static member
of the root. -/
def compile (root : Ty) (path : String) (isStatic : Bool) : Except Error CompiledPath := do
  if (Text.trim path.toList).isEmpty then throw (.parse path "path is empty")
  let raws ← Segment.split path
  return ⟨root, path, isStatic, ← resolve ts rules path isStatic root raws⟩

end

end CompiledPath

end Introspect

import Introspect.TypeSystem

/-!
The steps of a compiled path. Each reads from the value before it, and each that is not a call can
put a changed value back into its owner.
-/

namespace Introspect

/-- What a member step goes to. A call has its literal arguments with it. -/
inductive StepTarget where
  | field (f : FieldInfo)
  | property (p : PropertyInfo)
  | method (m : MethodInfo) (args : List Value)

namespace StepTarget

def name : StepTarget → String
  | field f => f.name
  | property p => p.name
  | method m _ => m.name

/-- The type of the member as it was found. -/
def ty : StepTarget → Ty
  | field f => f.ty
  | property p => p.ty
  | method m _ => m.result

def summary : StepTarget → String
  | field f => s!"Field({f.name})"
  | property p => s!"Property({p.name})"
  | method m args => s!"Method({m.signature}, {args.length} args)"

end StepTarget

inductive PathStep where
  | member (target : StepTarget) (isStatic : Bool)
  | arrayElement (index : Nat) (elem : Ty)
  | typedElement (index : Nat) (elem : Ty)
  | untypedElement (index : Nat)

namespace PathStep

def resultTy : PathStep → Ty
  | member target _ => target.ty
  | arrayElement _ elem => elem
  | typedElement _ elem => elem
  | untypedElement _ => .object

def isStatic : PathStep → Bool
  | member _ isStatic => isStatic
  | _ => false

def text : PathStep → String
  | member target _ => target.name
  | arrayElement index _ | typedElement index _ | untypedElement index => s!"[{index}]"

/-! ### Writability -/

/-- Whether the step may be the last one of a write. -/
def isWritable : PathStep → Bool
  | member (.field f) _ => !f.readOnly
  | member (.property p) _ => p.set?.isSome
  | _ => false

/-- Whether a changed copy of the step's value can be stored back. Elements are written in their
shared sequence. -/
def propagatesWrites : PathStep → Bool
  | s@(member ..) => s.isWritable
  | _ => true

def readOnlyReason : PathStep → String
  | member (.field f) _ => s!"field `{f.name}` is read-only"
  | member (.property p) _ => s!"property `{p.name}` has no setter"
  | member (.method m _) _ => s!"`{m.name}` is a method call"
  | s => s!"element access `{s.text}` cannot be assigned"

/-! ### Reading and writing -/

/-- The owner that the accessors of a member get: null for a static member, and otherwise the
value before the step, which must not be null. -/
def receiver (target : StepTarget) (isStatic : Bool) (owner : Value) : Action Value :=
  if isStatic then return .null
  else if owner.isNull then throw (.nullReference target.name)
  else return owner

/-- An element of a value of the expected shape. -/
def readElement (s : PathStep) (fits : Bool) (shape : String) (index : Nat) (owner : Value) :
    Action Value :=
  Action.read fun h =>
    if fits then owner.element h index
    else if owner.isNull then .error (.nullReference s.text)
    else .error (.typeMismatch shape (owner.typeOf h).text)

def isArray : Value → Bool
  | .array _ => true
  | _ => false

def isList : Value → Bool
  | .list _ => true
  | _ => false

def read (s : PathStep) (owner : Value) : Action Value :=
  match s with
  | member target isStatic => do
    let owner ← receiver target isStatic owner
    match target with
    | .field f => f.get owner
    | .property p => p.get owner
    | .method m args => m.body owner args
  | arrayElement index _ => s.readElement (isArray owner) "array" index owner
  | typedElement index _ | untypedElement index =>
    s.readElement (isList owner) "list" index owner

/-- Stores a value through the step and gives the owner to write back. -/
def write (s : PathStep) (owner value : Value) : Action Value :=
  match s with
  | member target isStatic => do
    let owner ← receiver target isStatic owner
    match target with
    | .field f =>
      if f.readOnly then throw (.notWritable s.text s.readOnlyReason) else f.set owner value
    | .property p =>
      match p.set? with
      | some set => set owner value
      | none => throw (.notWritable s.text s.readOnlyReason)
    | .method .. => throw (.notWritable s.text s.readOnlyReason)
  | arrayElement index _ | typedElement index _ | untypedElement index =>
    owner.withElement index value

end PathStep

end Introspect

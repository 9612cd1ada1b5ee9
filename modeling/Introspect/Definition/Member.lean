import Introspect.Value.Basic

/-!
Members of a definition: fields kept in the owner's record or in a slot of their own, properties
that compute, and methods. Where a field is kept says how it is read and written; a field with
accessors of its own, which then has no storage that is known here, is not considered, and what
computes is a property. The accessors of a member stay with it when its types are instantiated.
-/

namespace Introspect

/-- Reads a member from its owner, which is null for a static one. -/
abbrev MemberRead := Value → Action Value

/-- Writes a member and gives the owner to store back. -/
abbrev MemberWrite := Value → Value → Action Value

/-- Calls a method on a receiver, which is null for a static one. -/
abbrev MethodBody := Value → List Value → Action Value

/-- A field of each instance, or one slot shared by all. -/
inductive Storage where
  | record
  | slot (id : SlotId)
  deriving DecidableEq

/-- A field, read and written where it is stored. -/
structure FieldInfo where
  name : String
  ty : Ty
  readOnly : Bool
  storage : Storage

structure PropertyInfo where
  name : String
  ty : Ty
  isStatic : Bool
  get : MemberRead
  set? : Option MemberWrite

structure ParamInfo where
  name : String
  ty : Ty

structure MethodInfo where
  name : String
  params : List ParamInfo
  result : Ty
  isStatic : Bool
  body : MethodBody

inductive Member where
  | field (f : FieldInfo)
  | property (p : PropertyInfo)
  | method (m : MethodInfo)

namespace FieldInfo

def isStatic (f : FieldInfo) : Bool := f.storage != .record

def get (f : FieldInfo) (owner : Value) : Action Value :=
  match f.storage with
  | .record => Action.read fun h => owner.field h f.name
  | .slot id => Action.read fun h => .ok (h.slot id)

def set (f : FieldInfo) (owner value : Value) : Action Value :=
  match f.storage with
  | .record => owner.withField f.name value
  | .slot id => do
    Action.write fun h => h.setSlot id value
    return .null

end FieldInfo

namespace MethodInfo

def arity (m : MethodInfo) : Nat := m.params.length

def signature (m : MethodInfo) : String :=
  m.name ++ "(" ++ ", ".intercalate (m.params.map fun p => p.ty.text) ++ ")"

end MethodInfo

namespace Member

def name : Member → String
  | field f => f.name
  | property p => p.name
  | method m => m.name

def kind : Member → String
  | field _ => "Field"
  | property _ => "Property"
  | method _ => "Method"

def isStatic : Member → Bool
  | field f => f.isStatic
  | property p => p.isStatic
  | method m => m.isStatic

/-- The type of a field or a property, or the result type of a method. -/
def ty : Member → Ty
  | field f => f.ty
  | property p => p.ty
  | method m => m.result

def field? : Member → Option FieldInfo
  | field f => some f
  | _ => none

def property? : Member → Option PropertyInfo
  | property p => some p
  | _ => none

def method? : Member → Option MethodInfo
  | method m => some m
  | _ => none

def mapTypes (f : Ty → Ty) : Member → Member
  | field i => field { i with ty := f i.ty }
  | property p => property { p with ty := f p.ty }
  | method m => method { m with
      params := m.params.map fun p => { p with ty := f p.ty }
      result := f m.result }

/-- The member of an instantiation of its owner. -/
def instantiate (owner : String) (args : List Ty) (m : Member) : Member :=
  m.mapTypes (Ty.instantiate owner args)

/-- The short description, `Field(name: Type)` or `Method(name(Type, Type))`. -/
def summary : Member → String
  | method m => s!"Method({m.signature})"
  | m => s!"{m.kind}({m.name}: {m.ty.text})"

end Member

end Introspect

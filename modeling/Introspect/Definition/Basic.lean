import Introspect.Definition.Member

/-!
Definitions of types: kind, generic parameters with their constraints, base, interfaces and members.
-/

namespace Introspect

/-- Structs have value semantics: they are copied when read and written back when changed. -/
inductive TypeKind where
  | classType
  | structType
  | interfaceType
  deriving DecidableEq

def TypeKind.name : TypeKind → String
  | .classType => "Class"
  | .structType => "Struct"
  | .interfaceType => "Interface"

/-- What `[n]` yields: nothing, the first type argument, or `object`. -/
inductive Indexer where
  | none
  | typed
  | untyped
  deriving DecidableEq

def Indexer.name : Indexer → String
  | .none => "none"
  | .typed => "typed"
  | .untyped => "untyped"

structure SpecialConstraints where
  referenceType : Bool
  valueType : Bool
  defaultConstructor : Bool
  deriving DecidableEq

namespace SpecialConstraints

def none : SpecialConstraints := ⟨false, false, false⟩

def isEmpty (s : SpecialConstraints) : Bool :=
  !s.referenceType && !s.valueType && !s.defaultConstructor

end SpecialConstraints

/-- A generic parameter. Its constraints may mention the parameters of the definition. -/
structure GenericParam where
  name : String
  special : SpecialConstraints
  constraints : List Ty

structure TypeDef where
  name : String
  kind : TypeKind
  params : List GenericParam
  base : Option Ty
  interfaces : List Ty
  defaultConstructible : Bool
  indexer : Indexer
  members : List Member

namespace TypeDef

def new (name : String) (kind : TypeKind) : TypeDef where
  name := name
  kind := kind
  params := []
  base := none
  interfaces := []
  defaultConstructible := kind == .structType
  indexer := .none
  members := []

/-- The definition's own parameter at a position. One that is not declared yet has a stand-in name
until the definition is registered. -/
def param (d : TypeDef) (index : Nat) : TyParam where
  owner := d.name
  index := index
  name := (d.params[index]?.map (·.name)).getD s!"T{index}"

def paramTy (d : TypeDef) (index : Nat) : Ty := .param (d.param index)

/-- The type itself, or the generic definition `Name<P0, P1, ..>`. -/
def selfTy (d : TypeDef) : Ty := .named d.name ((List.range d.params.length).map d.paramTy)

def isGeneric (d : TypeDef) : Bool := !d.params.isEmpty

def declared (d : TypeDef) (name : String) : List Member :=
  d.members.filter fun m => m.name == name

/-- The fields that each instance holds, in the order of declaration. -/
def recordFields (d : TypeDef) : List FieldInfo :=
  d.members.filterMap fun m => m.field?.filter fun f => !f.isStatic

/-- Gives every occurrence of an own parameter its declared name. -/
def normalized (d : TypeDef) : TypeDef :=
  let rename := Ty.instantiate d.name d.selfTy.args
  { d with
    params := d.params.map fun p => { p with constraints := p.constraints.map rename }
    base := d.base.map rename
    interfaces := d.interfaces.map rename
    members := d.members.map (Member.mapTypes rename) }

end TypeDef

end Introspect

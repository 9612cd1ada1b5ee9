import Introspect.TypeSystem

/-!
Default instances: zero for the primitives, a struct of defaults for a struct, null for a reference.
There is none of a struct that contains itself.
-/

namespace Introspect

namespace TypeSystem

/-- The record fields of a type along its base chain, their types instantiated. -/
def instanceFields (ts : TypeSystem) (t : Ty) : List FieldInfo :=
  (ts.baseChain t).flatMap fun owner =>
    match owner with
    | .named n args =>
      match ts.find? n with
      | some d => d.recordFields.map fun f => { f with ty := f.ty.instantiate d.name args }
      | none => []
    | _ => []

/-- The default of a slot of one of the primitive types. -/
def primitiveDefault? (t : Ty) : Option Value :=
  match t.definitionName? with
  | some "int" => some (.int 0)
  | some "float" => some (.float .zero)
  | some "bool" => some (.bool false)
  | _ => none

/-- A new list or record of a closed named type. Of two fields with one name that of the more
derived class comes first and is the one that counts. -/
def make? (ts : TypeSystem) : (fuel : Nat) → Ty → StateT Heap Option Value
  | 0, _ => fun _ => none
  | fuel + 1, t =>
    if t.definitionName? == some "List" then fun h =>
      let (id, h) := h.addSequence ⟨some (t.args.head?.getD .object), []⟩
      some (.list id, h)
    else if t.definitionName? == some "ArrayList" then fun h =>
      let (id, h) := h.addSequence ⟨none, []⟩
      some (.list id, h)
    else do
      let fields ← (ts.instanceFields t).foldlM (fun fields f => do
        -- A base class does not replace the field of a derived one.
        if (Assoc.find? f.name fields).isSome then return fields
        match primitiveDefault? f.ty with
        | some v => return Assoc.put f.name v fields
        | none =>
          if ts.isValueType f.ty && !f.ty.isOpen then
            let v ← make? ts fuel f.ty
            return Assoc.put f.name v fields
          else return Assoc.put f.name .null fields) []
      if ts.isValueType t then return .struct t fields
      else fun h =>
        let (id, h) := h.addRecord ⟨t, fields⟩
        some (.object id, h)

def make (ts : TypeSystem) (t : Ty) : Action Value := fun h =>
  match ts.make? ts.limit t h with
  | some (v, h) => (.ok v, h)
  | none => (.ok .null, h)

def instantiate (ts : TypeSystem) (t : Ty) : Action Value :=
  match t with
  | .named n _ =>
    if (ts.find? n).isNone then throw (.typeResolution t.text "unknown type")
    else if t.isOpen then throw (.typeResolution t.text "cannot instantiate an open type")
    else ts.make t
  | _ => throw (.typeResolution t.text "not a named type")

def defaultValue (ts : TypeSystem) (t : Ty) : Action Value :=
  match primitiveDefault? t with
  | some v => return v
  | none => if ts.isValueType t && !t.isOpen then ts.make t else return .null

end TypeSystem

end Introspect

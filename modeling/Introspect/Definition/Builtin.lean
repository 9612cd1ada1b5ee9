import Introspect.Definition.Accessor
import Introspect.Definition.Basic

/-!
The definitions that every registry starts with: `object`, `void`, the primitives, and the list
types with their interfaces.
-/

namespace Introspect.Builtin

def count : Member :=
  .property ⟨"Count", .int, false, Accessor.getter Accessor.length, none⟩

/-- The only member of an array. -/
def arrayLength : Member :=
  .property ⟨"Length", .int, false, Accessor.getter Accessor.length, none⟩

/-- Appends one item to a list. Any other receiver or count of arguments is left alone. -/
def append : MethodBody := fun owner args => do
  match owner, args with
  | .list id, [item] =>
    Action.write fun h =>
      let s := h.sequence id
      h.setSequence id { s with items := s.items ++ [item] }
    return .null
  | _, _ => return .null

def ownParam (name : String) : GenericParam := ⟨name, .none, []⟩

def enumerable : TypeDef :=
  { TypeDef.new "IEnumerable" .interfaceType with params := [ownParam "T"] }

def listInterface : TypeDef :=
  { TypeDef.new "IList" .interfaceType with indexer := .untyped, members := [count] }

def list : TypeDef :=
  let elem : Ty := .param ⟨"List", 0, "T"⟩
  { TypeDef.new "List" .classType with
    params := [ownParam "T"]
    interfaces := [.enumerable elem, .listInterface]
    defaultConstructible := true
    indexer := .typed
    members := [count, .method ⟨"Add", [⟨"item", elem⟩], .void, false, append⟩] }

def arrayList : TypeDef :=
  { TypeDef.new "ArrayList" .classType with
    interfaces := [.listInterface]
    defaultConstructible := true
    indexer := .untyped
    members := [count] }

def definitions : List TypeDef :=
  [{ TypeDef.new "object" .classType with defaultConstructible := true },
    .new "void" .classType, .new "string" .classType,
    .new "int" .structType, .new "float" .structType, .new "bool" .structType,
    enumerable, listInterface, list, arrayList]

end Introspect.Builtin

import Introspect.TypeSystem

/-!
The table of definitions, in the order of registration.
-/

namespace Introspect

structure Registry where
  definitions : List TypeDef

namespace Registry

def empty : Registry := ⟨[]⟩

def find? (r : Registry) (name : String) : Option TypeDef :=
  r.definitions.find? fun d => d.name == name

def contains (r : Registry) (name : String) : Bool := (r.find? name).isSome

def names (r : Registry) : List String := r.definitions.map (·.name)

def types (r : Registry) (limit : Nat) : TypeSystem := ⟨r.find?, limit⟩

/-- Enters a definition at the end, or in the place of the one with its name. -/
def insert (r : Registry) (d : TypeDef) : Registry :=
  if r.contains d.name then ⟨r.definitions.map fun e => if e.name == d.name then d else e⟩
  else ⟨r.definitions ++ [d]⟩

/-- Parameters mentioned before their declaration get their names here. -/
def register (r : Registry) (d : TypeDef) : Registry := r.insert d.normalized

def builtin : Registry := Builtin.definitions.foldl register empty

end Registry

end Introspect

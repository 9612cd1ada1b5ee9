import Introspect.Definition.Member

/-!
Ready-made accessors, from which a host puts its members together. Each is a getter or a method
body, which sees its owner and its arguments, or a setter, which gives the owner to store back.
-/

namespace Introspect

namespace Accessor

def constant (v : Value) : MethodBody := fun _ _ => pure v

def field (name : String) : MethodBody := fun owner _ => Action.read fun h => owner.field h name

def owner : MethodBody := fun owner _ => pure owner

def lengthOf (v : Value) : Action Value :=
  Action.read fun h => (v.length h).map fun n => .int (Int64.ofNat n)

def length : MethodBody := fun owner _ => lengthOf owner

def element (index : Nat) : MethodBody := fun owner _ => Action.read fun h => owner.element h index

def fail (message : String) : MethodBody := fun _ _ => throw (.generic message)

def argument (index : Nat) : MethodBody := fun _ args => pure (args[index]?.getD .null)

/-- A new untyped list of the arguments. -/
def arguments : MethodBody := fun _ args => Value.newList none args

/-- The sum of the integers among the values, modulo `2 ^ 64`. -/
def total (values : List Value) : Int64 := (values.filterMap Value.asInt?).foldl (· + ·) 0

def sum : MethodBody := fun _ args => pure (.int (total args))

/-- Writes an argument into a field of the owner and gives the argument. -/
def put (name : String) (index : Nat) : MethodBody := fun owner args => do
  let value := args[index]?.getD .null
  let _ ← owner.withField name value
  return value

/-- Adds the arguments to an integer field of the owner and gives the sum. A field of another kind
counts as zero. -/
def add (name : String) : MethodBody := fun owner args => do
  let old ← Action.read fun h => owner.field h name
  let value := Value.int (old.asInt?.getD 0 + total args)
  let _ ← owner.withField name value
  return value

def null : MethodBody := fun _ _ => pure .null

/-- A body called without arguments. -/
def getter (b : MethodBody) : MemberRead := fun owner => b owner []

end Accessor

namespace Mutator

def field (name : String) : MemberWrite := fun owner value => owner.withField name value

def element (index : Nat) : MemberWrite := fun owner value => owner.withElement index value

/-- Ignores the value. -/
def drop : MemberWrite := fun owner _ => pure owner

def null : MemberWrite := fun _ _ => pure .null

def fail (message : String) : MemberWrite := fun _ _ => throw (.generic message)

end Mutator

end Introspect

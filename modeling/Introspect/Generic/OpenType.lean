import Introspect.Generic.Dependency
import Introspect.Generic.Parameter

/-!
A generic type some of whose arguments are known: substitution of further arguments, inference of
those that the known ones imply, and the closed type at the end.
-/

namespace Introspect

structure OpenType where
  definition : TypeDef
  /-- The arguments known so far, by position. -/
  arguments : List (Option Ty)

/-- What inference found, with whether it found anything. -/
structure Inference where
  arguments : List (Option Ty)
  inferredAny : Bool

def Inference.isComplete (i : Inference) : Bool := i.arguments.all Option.isSome

namespace OpenType

def parameters (o : OpenType) : List Parameter := Parameter.all o.definition

/-- The graph of which parameter's constraints mention which. -/
def dependencies (d : TypeDef) : DependencyGraph :=
  (Parameter.all d).foldl (fun g p =>
    p.dependsOn.foldl (fun g target => g.addEdge p.position target) g)
    (.new d.params.length)

def graph (o : OpenType) : DependencyGraph := dependencies o.definition

/-- An argument is known if it mentions no parameter of the definition itself. -/
def knownArgument? (d : TypeDef) (args : List Ty) (position : Nat) : Option Ty :=
  args[position]?.filter fun arg => !arg.occurrences.any fun p => p.owner == d.name

/-- Parameters that depend on each other in a cycle are refused. -/
def ofTy (ts : TypeSystem) (t : Ty) : Except Error OpenType := do
  let .named n args := t | throw (.typeResolution t.text "not a named type")
  let some d := ts.find? n | throw (.typeResolution t.text "unknown type")
  -- No arguments at all leave every parameter open.
  if !args.isEmpty && args.length != d.params.length then
    throw (.typeResolution t.text
      s!"expects {d.params.length} type argument(s), got {args.length}")
  match (dependencies d).findCycle? with
  | some cycle =>
    throw (.cyclicDependency d.selfTy.text (cycle.map fun position => (d.param position).name))
  | none => return ⟨d, (List.range d.params.length).map (knownArgument? d args)⟩

/-! ### Arguments -/

def bindingsOf (parameters : List Parameter) (arguments : List (Option Ty)) : Bindings :=
  (parameters.zip arguments).foldl (fun b (p, arg) =>
    match arg with
    | some t => b.insert p.param t
    | none => b) .empty

def bindings (o : OpenType) : Bindings := bindingsOf o.parameters o.arguments

def openParameters (o : OpenType) : List Parameter :=
  (o.parameters.zip o.arguments).filterMap fun (p, arg) => if arg.isNone then some p else none

def substituted (o : OpenType) : List (Parameter × Ty) :=
  (o.parameters.zip o.arguments).filterMap fun (p, arg) => arg.map fun t => (p, t)

section

variable (ts : TypeSystem)

/-- Substitutes one parameter, its constraints checked against the arguments known so far. -/
def withArgument (o : OpenType) (position : Nat) (t : Ty) : Except Error OpenType :=
  match o.parameters[position]? with
  | none => .error (.typeResolution o.definition.name
      s!"no generic parameter at position {position}")
  | some p => do
    p.check ts t o.bindings
    return { o with arguments := o.arguments.set position (some t) }

/-! ### Inference -/

/-- The argument of a parameter that a known argument of a dependent one implies. -/
def inferOne? (parameters : List Parameter) (arguments : List (Option Ty)) (p : Parameter) :
    Option Ty :=
  let known := bindingsOf parameters arguments
  p.dependedOnBy.findSome? fun position => do
    let concrete ← arguments[position]?.join
    let dependent ← parameters[position]?
    p.inferFrom? ts dependent concrete known

/-- One round over the parameters in their order, each seeing what was found before it. -/
def inferRound (parameters : List Parameter) (arguments : List (Option Ty)) : List (Option Ty) :=
  parameters.foldl (fun arguments p =>
    if (arguments[p.position]?.join).isSome then arguments
    else
      match inferOne? ts parameters arguments p with
      | some t => arguments.set p.position (some t)
      | none => arguments) arguments

/-- As many rounds as there are parameters. -/
def infer (o : OpenType) : Inference :=
  let parameters := o.parameters
  let arguments := parameters.length.repeat (inferRound ts parameters) o.arguments
  ⟨arguments, (arguments.zip o.arguments).any fun (after, before) =>
    after.isSome && before.isNone⟩

/-! ### Closing -/

/-- The definition applied to the arguments, all of which must be there. -/
def close (o : OpenType) (arguments : List (Option Ty)) : Except Error Ty :=
  let missing := o.parameters.filter fun p => (arguments[p.position]?.join).isNone
  if missing.isEmpty then
    .ok (.named o.definition.name ((arguments.take o.parameters.length).filterMap id))
  else .error (.inferenceIncomplete o.definition.selfTy.text (missing.map Parameter.name))

/-- Checks every parameter with all arguments bound. -/
def verify (o : OpenType) (arguments : List Ty) : Except Error Unit :=
  let bindings := bindingsOf o.parameters (arguments.map some)
  (o.parameters.zip arguments).forM fun (p, arg) => p.check ts arg bindings

/-- Infers what the known arguments imply, closes the type and verifies it. -/
def solve (o : OpenType) : Except Error Ty := do
  let inference := o.infer ts
  let resolved ← o.close inference.arguments
  o.verify ts (inference.arguments.filterMap id)
  return resolved

end

end OpenType

end Introspect

import Introspect.Path.Compiled

/-!
Reading and writing through a compiled path. A write goes into the owner of the last step; owners
that were copied are written back into theirs, up to the first shared one or the root itself.
-/

namespace Introspect.CompiledPath

/-- The value that the first step gets. -/
def start (p : CompiledPath) (root : Value) : Value := if p.isStatic then .null else root

def readAll (steps : List PathStep) (v : Value) : Action Value :=
  steps.foldlM (fun current step => step.read current) v

def get (p : CompiledPath) (root : Value) : Action Value := readAll p.steps (p.start root)

/-! ### Writing -/

/-- A write must not go through a copy that cannot be stored back. -/
def checkWritable (ts : TypeSystem) (p : CompiledPath) : Except Error Unit :=
  match p.steps.getLast? with
  | none => .error (.notWritable p.text "path has no steps")
  | some last =>
    if !last.isWritable then .error (.notWritable p.text last.readOnlyReason)
    else
      match p.steps.dropLast.find? fun s => ts.isValueType s.resultTy && !s.propagatesWrites with
      | none => .ok ()
      | some s => .error (.notWritable p.text
          s!"`{s.text}` returns a copy of value type `{s.resultTy}` that cannot be stored back ({s.readOnlyReason})")

/-- A value fits the path if its type converts to the path's, and null if the path's type is not a
value type. -/
def fits (ts : TypeSystem) (p : CompiledPath) (h : Heap) (v : Value) : Bool :=
  if v.isNull then !ts.isValueType p.resultTy else ts.isAssignable p.resultTy (v.typeOf h)

def checkValue (ts : TypeSystem) (p : CompiledPath) (v : Value) : Action Unit :=
  Action.read fun h =>
    if p.fits ts h v then .ok ()
    else .error (.typeMismatch p.resultTy.text (v.typeOf h).text)

/-- The owner of each step. All steps but the last are read. -/
def owners : List PathStep → Value → Action (List Value)
  | [], _ => return []
  | [_], v => return [v]
  | s :: rest, v => do
    let next ← s.read v
    return v :: (← owners rest next)

/-- Writes a value through steps with their owners, the last step first, as long as the owners are
copies. The outcome is the new root if all of them are. -/
def writeBack : List (PathStep × Value) → Value → Action (Option Value)
  | [], v => return some v
  | (s, owner) :: rest, v => do
    let written ← s.write owner v
    if owner.hasValueSemantics then writeBack rest written else return none

/-- Writes a value through the path and gives the root after it. -/
def set (ts : TypeSystem) (p : CompiledPath) (root value : Value) : Action Value := do
  p.checkValue ts value
  let owners ← owners p.steps (p.start root)
  -- The owners are as they were before the write: each copy goes back into the one it came from.
  match ← writeBack (p.steps.zip owners).reverse value with
  -- A static path starts at no value, so there is nothing for the root to take up.
  | some written => return if p.isStatic then root else written
  | none => return root

end Introspect.CompiledPath

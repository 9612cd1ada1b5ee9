import Introspect.Path.Access
import Introspect.Path.Compiler
import Introspect.Text.Quoted

/-!
Invokers: a method that the last segment of a path names, bound to the path of its receiver. They
take their arguments when they are called.
-/

namespace Introspect

structure Invoker where
  /-- The path of the receiver, if there is one before the method's name. -/
  target? : Option CompiledPath
  method : MethodInfo
  isStatic : Bool
  /-- Whether the path starts at a type and not at a value. -/
  isStaticRoot : Bool

namespace Invoker

def description (i : Invoker) : String :=
  let target := match i.target? with
    | some path => "Some(" ++ Text.quoted path.text ++ ")"
    | none => "None"
  "Invoker \x7b target: " ++ target ++ ", method: " ++ Text.quoted i.method.signature ++
    s!", is_static: {i.isStatic} \x7d"

/-- The text before the last segment and its dot. -/
def receiverText (text last : String) : String :=
  String.ofList (text.toList.take (text.toList.length - last.toList.length - 1))

theorem receiverText_append_dot (receiver last : String) :
    receiverText (receiver ++ "." ++ last) last = receiver := by
  have hlength : (receiver ++ "." ++ last).toList.length - last.toList.length - 1 =
      receiver.toList.length := by
    rw [String.toList_append, String.toList_append, List.length_append, List.length_append]
    change receiver.toList.length + 1 + last.toList.length - last.toList.length - 1 = _
    omega
  rw [receiverText, hlength, String.append_assoc, String.toList_append, List.take_left,
    String.ofList_toList]

/-- The method that the last segment names, chosen by the types of its arguments. -/
def build (ts : TypeSystem) (root : Ty) (text : String) (argTypes : List Ty) (isStatic : Bool) :
    PathM Invoker := do
  let raws ← PathM.lift (Segment.split text)
  let last := raws.getLast?.getD ""
  let segment ← PathM.lift (Segment.parse text last)
  -- The arguments come with each call, so the segment has none of its own.
  if segment.args?.isSome || !segment.indices.isEmpty then
    let shown := String.ofList (Text.trim last.toList)
    throw (.parse text s!"invoker target `{shown}` must be a bare method name")
  let (target?, owner, ofType) ←
    if raws.length == 1 then pure (none, root, isStatic)
    else do
      let path ← PathCompiler.compile ts root (receiverText text last) isStatic
      -- Behind a receiver the method is an instance method, whatever the root is.
      pure (some path.value, path.value.resultTy, false)
  let members := ts.findMembers owner segment.name (.of ofType)
  let method ← PathM.lift (Overload.select ts owner segment.name members argTypes)
  return ⟨target?, method, ofType, isStatic⟩

/-- Calls the method. The number of arguments is checked before the receiver is read. -/
def invoke (i : Invoker) (root : Value) (args : List Value) : Action Value := do
  if args.length != i.method.arity then
    throw (.overloadMismatch i.method.signature none
      s!"expected {i.method.arity} argument(s), got {args.length}")
  let receiver ←
    match i.target? with
    | some path => path.get root
    | none => pure (if i.isStaticRoot then .null else root)
  if !i.isStatic && receiver.isNull then throw (.nullReference i.method.name)
  i.method.body receiver args

end Invoker

end Introspect

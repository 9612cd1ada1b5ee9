import Introspect.Path.Directive
import Introspect.Path.Invoker
import Introspect.TypeName

/-!
Expressions: text that is shown as it is, or resolved against a context value. What an expression
resolves to is found once and kept, a failure with its message too.
-/

namespace Introspect

/-- What an expression runs: a path to read, or a call with its literal arguments. -/
inductive Evaluator where
  | getter (path : CompiledPath)
  | call (invoker : Invoker) (args : List Value)

inductive Resolution where
  | ready (e : Evaluator)
  /-- Without a root type the path is compiled for the type of each context. -/
  | perContext (path : String)

structure Expression where
  text : String
  isLiteral : Bool
  /-- The text behind the sentinel. -/
  source : String
  root? : Option Ty
  memo : Option (Except String Resolution)

namespace Evaluator

def run (e : Evaluator) (context : Value) : Action Value :=
  match e with
  | getter path => path.get context
  | call invoker args => invoker.invoke context args

/-- A last segment with arguments and no index is called through an invoker; anything else is
read. -/
def build (ts : TypeSystem) (root : Ty) (path : String) (isStatic : Bool) :
    PathM Evaluator := do
  let raws ← PathM.lift (Segment.split path)
  let raw := raws.getLast?.getD ""
  let last ← PathM.lift (Segment.parse path raw)
  match last.args? with
  | some args =>
    if last.indices.isEmpty then
      -- The path without its call: what stands before the last segment, and the name.
      let before := path.toList.take (path.toList.length - raw.toList.length)
      let target := String.ofList before ++ last.name
      let argTypes := args.map (Value.typeOf .empty)
      return .call (← Invoker.build ts root target argTypes isStatic) args
    else return .getter (← PathCompiler.compile ts root path isStatic).value
  | none => return .getter (← PathCompiler.compile ts root path isStatic).value

end Evaluator

namespace Expression

def sentinel : Char := '@'

def literal (text : String) : Expression := ⟨text, true, text, none, none⟩

/-- With `flagGating` only a text that starts with the sentinel is dynamic; without it every text
is, and the sentinel is dropped. -/
def new (text : String) (root? : Option Ty) (flagGating : Bool) : Expression :=
  match Text.trimStart text.toList with
  | c :: rest =>
    if c == sentinel then ⟨text, false, String.ofList rest, root?, none⟩
    else ⟨text, flagGating, text, root?, none⟩
  | [] => ⟨text, flagGating, text, root?, none⟩

/-- The syntax of a path, without a type to resolve it against. -/
def checkSyntax (path : String) : Except Error Unit := do
  for raw in ← Segment.split path do
    let _ ← Segment.parse path raw

def resolution (ts : TypeSystem) (e : Expression) : PathM Resolution := do
  match ← PathM.lift (Directive.parse e.source) with
  | .fromType typeName path =>
    let root ← PathM.lift (ts.resolve typeName)
    return .ready (← Evaluator.build ts root path true)
  | .fromContext path =>
    match e.root? with
    | some root => return .ready (← Evaluator.build ts root path false)
    | none =>
      PathM.lift (checkSyntax path)
      return .perContext path

/-- The kept resolution of a dynamic expression, found now if there is none yet. -/
def resolve (ts : TypeSystem) (e : Expression) :
    StateM PathCompiler (Except String Resolution × Expression) := do
  match e.memo with
  | some kept => return (kept, e)
  | none =>
    let result := (← (e.resolution ts).run).mapError Error.message
    return (result, { e with memo := some result })

/-- The message of a failed resolution. A literal cannot fail. -/
def error? (ts : TypeSystem) (e : Expression) :
    StateM PathCompiler (Option String × Expression) := do
  if e.isLiteral then return (none, e)
  let (result, e) ← e.resolve ts
  match result with
  | .error message => return (some message, e)
  | .ok _ => return (none, e)

/-- What to run for a context of some type. -/
def evaluator (ts : TypeSystem) (e : Expression) (contextTy : Ty) :
    StateM PathCompiler (Except Error Evaluator × Expression) := do
  let (result, e) ← e.resolve ts
  match result with
  | .error message => return (.error (.invalidExpression e.text message), e)
  | .ok (.ready evaluator) => return (.ok evaluator, e)
  | .ok (.perContext path) =>
    let result ← (Evaluator.build ts contextTy path false).run
    return (result, e)

/-- Evaluates an expression. The text of a literal is its value. -/
def evaluate (ts : TypeSystem) (e : Expression) (context : Value) (c : PathCompiler) (h : Heap) :
    Except Error Value × Expression × PathCompiler × Heap :=
  if e.isLiteral then (.ok (.string e.text), e, c, h)
  else
    match (e.evaluator ts (context.typeOf h)).run c with
    | ((.error err, e), c) => (.error err, e, c, h)
    | ((.ok evaluator, e), c) =>
      let (result, h) := (evaluator.run context).run h
      (result, e, c, h)

end Expression

end Introspect

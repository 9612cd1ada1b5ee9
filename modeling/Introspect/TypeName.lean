import Introspect.Text.Alphanumeric
import Introspect.Text.Blank
import Introspect.TypeSystem

/-!
Type names in source form: `Name`, `Name<A, B>` and any number of `[]` after either. Blanks may
stand between the tokens, and a generic name without arguments is its generic definition.
-/

namespace Introspect.TypeName

open Text (isBlank trimStart)

def isNameChar (c : Char) : Bool := Text.isAlphanumeric c || c == '_' || c == '.'

/-- The rest after a token and the blanks before it. -/
def eat? (token : Char) (cs : List Char) : Option (List Char) :=
  match trimStart cs with
  | c :: rest => if c == token then some rest else none
  | [] => none

/-- Array suffixes after an element type. -/
def parseSuffixes (text : String) : (fuel : Nat) → Ty → List Char → Except Error (Ty × List Char)
  | 0, t, cs => .ok (t, cs)
  | fuel + 1, t, cs =>
    match eat? '[' cs with
    | none => .ok (t, cs)
    | some rest =>
      match eat? ']' rest with
      | none => .error (.typeResolution text "expected `]`")
      | some rest => parseSuffixes text fuel (.array t) rest

def applied (d : TypeDef) (name : String) (args : List Ty) : Except Error Ty :=
  if args.isEmpty then .ok d.selfTy
  else if args.length == d.params.length then .ok (.named name args)
  else .error (.typeResolution name
    s!"expected {d.params.length} type arguments, found {args.length}")

mutual

/-- A type at the front of the text. Each step down takes characters, so a `fuel` above the length
of the text is never used up. -/
def parseType (ts : TypeSystem) (text : String) :
    (fuel : Nat) → List Char → Except Error (Ty × List Char)
  | 0, _ => .error (.typeResolution text "expected a type name")
  | fuel + 1, cs => do
    let cs := trimStart cs
    let letters := cs.takeWhile isNameChar
    let rest := cs.dropWhile isNameChar
    if letters.isEmpty then throw (.typeResolution text "expected a type name")
    let name := String.ofList letters
    match ts.find? name with
    | none => throw (.typeResolution name "unknown type")
    | some d =>
      let (args, rest) ←
        -- Arguments are read before their number is checked.
        match eat? '<' rest with
        | some rest => parseArgs ts text fuel rest
        | none => pure ([], rest)
      parseSuffixes text rest.length (← applied d name args) rest

/-- Types with commas between them, up to the closing bracket. -/
def parseArgs (ts : TypeSystem) (text : String) :
    (fuel : Nat) → List Char → Except Error (List Ty × List Char)
  | 0, _ => .error (.typeResolution text "expected a type name")
  | fuel + 1, cs => do
    let (arg, rest) ← parseType ts text fuel cs
    match eat? ',' rest with
    | some rest =>
      let (args, rest) ← parseArgs ts text fuel rest
      return (arg :: args, rest)
    | none =>
      match eat? '>' rest with
      | some rest => return ([arg], rest)
      | none => throw (.typeResolution text "expected `,` or `>` in type argument list")

end

end TypeName

/-- The type that a text names. -/
def TypeSystem.resolve (ts : TypeSystem) (text : String) : Except Error Ty := do
  let cs := text.toList
  let (t, rest) ← TypeName.parseType ts text (2 * cs.length + 2) cs
  match Text.trimStart rest with
  | [] => return t
  | rest => throw (.typeResolution text s!"unexpected `{String.ofList rest}`")

end Introspect

import Introspect.Path.Literal
import Introspect.Text.Alphanumeric

/-!
The syntax of paths: segments with dots between them, each a name, perhaps with call arguments in
parentheses, and then any number of indices in brackets.
-/

namespace Introspect

/-- `Name` or `Name(args)`, each with `[n]` suffixes. -/
structure Segment where
  name : String
  args? : Option (List Value)
  indices : List Nat

namespace Segment

open Text (Quote trim)

/-! ### Splitting -/

/-- How deep in parentheses and brackets a reader is, and whether in a quoted literal. -/
structure Nesting where
  depth : Nat
  quote : Quote
  deriving DecidableEq

namespace Nesting

def start : Nesting := ⟨0, .outside⟩

/-- The nesting after a character; none if it closes what is not open. Quotes count only within
parentheses or brackets. -/
def next? (n : Nesting) (c : Char) : Option Nesting :=
  if n.quote ≠ .outside then some ⟨n.depth, n.quote.next c⟩
  else if c == '(' || c == '[' then some ⟨n.depth + 1, .outside⟩
  else if c == ')' || c == ']' then
    if n.depth == 0 then none else some ⟨n.depth - 1, .outside⟩
  else if n.depth == 0 then some n
  else some ⟨n.depth, n.quote.next c⟩

end Nesting

/-- The pieces between the dots outside of parentheses, brackets and quoted literals. -/
def pieces : Nesting → List Char → Except String (List (List Char))
  | n, [] =>
    if n.quote ≠ .outside then .error "unterminated string literal"
    else if n.depth ≠ 0 then .error "unbalanced parentheses or brackets"
    else .ok [[]]
  | n, c :: cs =>
    -- Only where nothing is open does a dot divide.
    if n = .start && c == '.' then do
      return [] :: (← pieces n cs)
    else
      match n.next? c with
      | none => .error s!"unbalanced `{c}`"
      | some n =>
        match pieces n cs with
        | .ok (p :: ps) => .ok ((c :: p) :: ps)
        | .ok [] => .ok [[c]]
        | .error e => .error e

/-- The raw segments of a path, none of them blank. -/
def split (path : String) : Except Error (List String) :=
  match pieces .start path.toList with
  | .error e => .error (.parse path e)
  | .ok ps =>
    match ps.findIdx? fun p => (trim p).isEmpty with
    | some n => .error (.parse path s!"segment {n} is empty")
    | none => .ok (ps.map String.ofList)

/-! ### Parsing -/

def isNameChar (c : Char) : Bool := Text.isAlphanumeric c || c == '_'

/-- Cuts a text at the parenthesis that closes one already open: what is inside, and the rest. -/
def cutCall : (depth : Nat) → Quote → List Char → Option (List Char × List Char)
  | _, _, [] => none
  | depth, q, c :: cs =>
    if q = .outside && c == ')' && depth == 0 then some ([], cs)
    else
      -- Brackets do not nest here: only parentheses count, and none within quotes.
      let depth :=
        if q = .outside && c == '(' then depth + 1
        else if q = .outside && c == ')' then depth - 1
        else depth
      (cutCall depth (q.next c) cs).map fun (inside, rest) => (c :: inside, rest)

/-- The arguments in parentheses, if there are any, and the rest. -/
def parseCall (path raw : String) (cs : List Char) :
    Except Error (Option (List Value) × List Char) :=
  match cs with
  | '(' :: cs =>
    match cutCall 0 .outside cs with
    | none => .error (.parse path s!"unclosed call in `{raw}`")
    | some (inside, rest) =>
      match Literal.parseArgs inside with
      | .ok args => .ok (some args, rest)
      | .error e => .error (.parse path e)
  | cs => .ok (none, cs)

/-- Indices in brackets as long as there are any, and the rest. Each takes characters, so a `fuel`
of the length of the text is enough. -/
def parseIndices (path raw : String) : (fuel : Nat) → List Char → Except Error (List Nat × List Char)
  | fuel + 1, '[' :: cs => do
    let inside := cs.takeWhile (· != ']')
    match cs.dropWhile (· != ']') with
    | [] => throw (.parse path s!"unclosed index in `{raw}`")
    | _ :: rest =>
      match Text.unsigned? (trim inside) with
      | none => throw (.parse path
          s!"index `{String.ofList inside}` is not a non-negative integer")
      | some index =>
        let (indices, rest) ← parseIndices path raw fuel rest
        return (index :: indices, rest)
  | _, cs => .ok ([], cs)

/-- A raw segment of `path`. -/
def parse (path raw : String) : Except Error Segment := do
  let cs := trim raw.toList
  let raw := String.ofList cs
  let name := cs.takeWhile isNameChar
  let rest := cs.dropWhile isNameChar
  if name.isEmpty || name.head?.any Char.isDigit then
    throw (.parse path s!"`{raw}` is not a member name")
  let (args?, rest) ← parseCall path raw rest
  let (indices, rest) ← parseIndices path raw rest.length rest
  if rest.isEmpty then return ⟨String.ofList name, args?, indices⟩
  else throw (.parse path s!"unexpected `{String.ofList rest}` after `{String.ofList name}`")

end Segment

end Introspect

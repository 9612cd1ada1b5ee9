import Introspect.Error
import Introspect.Text.Blank

/-!
Directives choose the root of an expression: `-p:` gives a path from the context value, and `-t:`
with it a type whose static member the path starts from. Text without either is a path as it is.
-/

namespace Introspect

inductive Directive where
  | fromContext (path : String)
  | fromType (typeName path : String)
  deriving DecidableEq

namespace Directive

open Text (trim)

def typeMarker : String := "-t:"

def pathMarker : String := "-p:"

/-- What follows the first marker that is at the start or behind a blank. A marker elsewhere is
passed over as a whole, `skip` characters of it being left. -/
def afterMarker? (marker : List Char) : (skip : Nat) → (boundary : Bool) → List Char →
    Option (List Char)
  | _, boundary, [] => if boundary && marker.isEmpty then some [] else none
  | skip, boundary, c :: cs =>
    if skip == 0 && marker.isPrefixOf (c :: cs) then
      if boundary then some ((c :: cs).drop marker.length)
      else afterMarker? marker (marker.length - 1) (Text.isBlank c) cs
    else afterMarker? marker (skip - 1) (Text.isBlank c) cs

/-- The text up to the next blank with a dash behind it. -/
def untilDash : List Char → List Char
  | ' ' :: '-' :: _ => []
  | c :: cs => c :: untilDash cs
  | [] => []

/-- The value of a directive in a text. -/
def find? (text marker : String) : Option String :=
  (afterMarker? marker.toList 0 true text.toList).map fun rest =>
    String.ofList (trim (untilDash rest))

def parse (text : String) : Except Error Directive :=
  match find? text typeMarker, find? text pathMarker with
  | some typeName, some path =>
    if typeName.isEmpty || path.isEmpty then
      .error (.parse text "`-t:` and `-p:` need a value")
    else .ok (.fromType typeName path)
  | some _, none => .error (.parse text "`-t:` requires a `-p:` path")
  | none, some path =>
    if path.isEmpty then .error (.parse text "`-p:` needs a value") else .ok (.fromContext path)
  | none, none => .ok (.fromContext (String.ofList (trim text.toList)))

end Directive

end Introspect

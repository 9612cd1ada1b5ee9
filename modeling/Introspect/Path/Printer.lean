import Introspect.Path.Segment

/-!
The written form of paths. Each segment is its name, the literals of its call in parentheses and its
indices in brackets, and there is a dot between two segments.
-/

namespace Introspect

namespace Text

/-- A backslash before each double quote and each backslash. -/
def escape (cs : List Char) : List Char :=
  cs.flatMap fun c => if c == '"' || c == '\\' then ['\\', c] else [c]

def inQuotes (cs : List Char) : List Char := '"' :: escape cs ++ ['"']

end Text

namespace Literal

/-- Whether a value is written as a literal here: an integer, a truth value or a text. -/
def isWritten : Value → Bool
  | .int _ | .bool _ | .string _ => true
  | _ => false

def written : Value → List Char
  | .int n => (toString n).toList
  | .bool b => (toString b).toList
  | .string s => Text.inQuotes s.toList
  | _ => []

/-- The literals between the parentheses of a call. -/
def writtenArgs (args : List Value) : List Char := [',', ' '].intercalate (args.map written)

end Literal

namespace Segment

def writtenCall : Option (List Value) → List Char
  | none => []
  | some args => '(' :: Literal.writtenArgs args ++ [')']

def writtenIndex (index : Nat) : List Char := '[' :: Nat.toDigits 10 index ++ [']']

def written (s : Segment) : List Char :=
  s.name.toList ++ (writtenCall s.args? ++ s.indices.flatMap writtenIndex)

/-- The path that is made of segments. -/
def join (segments : List Segment) : String :=
  ".".intercalate (segments.map fun s => String.ofList s.written)

end Segment

end Introspect

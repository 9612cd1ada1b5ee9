/-!
The state of a reader that passes quoted literals: outside of them, inside one, or behind a
backslash inside one. Every reader of call arguments goes by this one state.
-/

namespace Introspect.Text

inductive Quote where
  | outside
  | inside (mark : Char)
  | escaped (mark : Char)
  deriving DecidableEq

namespace Quote

def isMark (c : Char) : Bool := c == '"' || c == '\''

def next : Quote → Char → Quote
  | outside, c => if isMark c then inside c else outside
  | inside mark, c =>
    if c == '\\' then escaped mark else if c == mark then outside else inside mark
  | escaped mark, _ => inside mark

/-- The state after a text. -/
def after (q : Quote) (cs : List Char) : Quote := cs.foldl next q

theorem after_append (q : Quote) (cs ds : List Char) :
    q.after (cs ++ ds) = (q.after cs).after ds := List.foldl_append

end Quote

/-- The content of a literal in quotes, a backslash standing for the character behind it. -/
def unescape (mark : Char) : List Char → Option (List Char)
  | [] => some []
  | '\\' :: c :: cs => (unescape mark cs).map (c :: ·)
  | c :: cs => if c == '\\' || c == mark then none else (unescape mark cs).map (c :: ·)

/-- The content of a text that is one quoted literal as a whole. -/
def unquote : List Char → Option (List Char)
  | [] => none
  | mark :: rest =>
    if Quote.isMark mark && rest.getLast? == some mark then unescape mark rest.dropLast else none

end Introspect.Text

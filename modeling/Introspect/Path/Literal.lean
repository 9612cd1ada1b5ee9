import Introspect.Decimal.Reader
import Introspect.Text.Blank
import Introspect.Text.Quote
import Introspect.Value.Basic

/-!
Literal arguments of a call: integers, floats, booleans and quoted strings, with commas between them.
-/

namespace Introspect.Literal

open Text (Quote trim)

/-- Whether a text is made of the characters of a numeral and starts as one does. -/
def looksNumeric (cs : List Char) : Bool :=
  let body := (Binary64.unsign cs).2
  (body.head?.any fun c => c.isDigit || c == '.') &&
    body.all fun c => c.isDigit || c == '.' || c == 'e' || c == 'E' || c == '-' || c == '+'

def equalsIgnoringCase (cs : List Char) (word : String) : Bool :=
  cs.map Char.toLower == word.toList

/-- A single literal, with blanks around it. An integer that does not fit 64 bits is a float. -/
def parse? (cs : List Char) : Option Value :=
  let cs := trim cs
  match Text.unquote cs with
  | some s => some (.string (String.ofList s))
  | none =>
    if equalsIgnoringCase cs "true" then some (.bool true)
    else if equalsIgnoringCase cs "false" then some (.bool false)
    else if looksNumeric cs then
      match Text.signed? cs with
      | some n => some (.int n)
      | none => (Binary64.read? cs).map .float
    else none

/-- The pieces between the commas outside of quoted literals. -/
def pieces : Quote → List Char → List (List Char)
  | _, [] => [[]]
  | q, c :: cs =>
    if q = .outside && c == ',' then [] :: pieces q cs
    else
      match pieces (q.next c) cs with
      | p :: ps => (c :: p) :: ps
      | [] => [[c]]

def parseArg (piece : List Char) : Except String Value :=
  let arg := trim piece
  if arg.isEmpty then .error "empty argument"
  else
    match parse? arg with
    | some v => .ok v
    | none => .error s!"`{String.ofList arg}` is not a literal"

/-- The arguments of a call. Blank text is the empty list. -/
def parseArgs (cs : List Char) : Except String (List Value) :=
  if (trim cs).isEmpty then .ok []
  else if Quote.outside.after cs = .outside then (pieces .outside cs).mapM parseArg
  else .error "unterminated string literal"

end Introspect.Literal

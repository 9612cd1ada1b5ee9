/-!
Documents of the interchange format, as a reader of typed data needs them: keys keep their order and
their repeats, and what cannot be a value of a field is only known to be there.
-/

namespace Introspect.Json

inductive Document where
  | null
  | bool (b : Bool)
  /-- A number, with its value if it is written as an unsigned integer. -/
  | number (natural? : Option Nat)
  /-- A string; there is no text if it has half of a surrogate pair in it. -/
  | string (text? : Option String)
  | array (items : List Document)
  | object (entries : List (Option String × Document))

namespace Document

def ofString (s : String) : Document := .string (some s)

def ofNat (n : Nat) : Document := .number (some n)

def ofEntries (entries : List (String × Document)) : Document :=
  .object (entries.map fun e => (some e.1, e.2))

def bool? : Document → Option Bool
  | bool b => some b
  | _ => none

def string? : Document → Option String
  | string text? => text?
  | _ => none

/-- An unsigned integer of 64 bits. -/
def word? : Document → Option Nat
  | number natural? => natural?.filter (· < 0x10000000000000000)
  | _ => none

/-- The values of a record's fields, written as an object or as an array in the order of the fields.
Unknown keys are passed over; a repeated field, a broken key or an item too many is refused. -/
def fields? (names : List String) : Document → Option (List (Option Document))
  | array items =>
    if items.length <= names.length then
      some ((List.range names.length).map fun i => items[i]?)
    else none
  | object entries =>
    if entries.any fun e => e.1.isNone then none
    else names.mapM fun name =>
      match entries.filter fun e => e.1 == some name with
      | [] => some none
      | [e] => some (some e.2)
      | _ => none
  | _ => none

end Document

end Introspect.Json

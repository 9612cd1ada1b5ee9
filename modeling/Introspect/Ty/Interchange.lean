import Introspect.Json.Reader
import Introspect.Ty.Basic

/-!
Types as documents: an object with the shape of the type as its only key. A record of fields may
also be read from an array in the order of the fields.
-/

namespace Introspect.Ty

open Json (Document)

mutual

def toDocument : Ty → Document
  | .named n as => .ofEntries
      [("Named", .ofEntries [("name", .ofString n), ("args", .array (toDocuments as))])]
  | .array a => .ofEntries [("Array", toDocument a)]
  | .param p => .ofEntries [("Param", .ofEntries
      [("owner", .ofString p.owner), ("index", .ofNat p.index), ("name", .ofString p.name)])]

def toDocuments : List Ty → List Document
  | [] => []
  | a :: as => toDocument a :: toDocuments as

end

/-- Objects and arrays are read to a depth of `levels`. -/
def ofDocument? : (levels : Nat) → Document → Option Ty
  -- The body and the array of arguments are levels of their own.
  | levels + 3, .object [(some "Named", body)] => do
    let [some name, some args] ← body.fields? ["name", "args"] | none
    let .array args := args | none
    return .named (← name.string?) (← args.mapM (ofDocument? levels))
  | levels + 1, .object [(some "Array", elem)] => return .array (← ofDocument? levels elem)
  | _ + 2, .object [(some "Param", body)] => do
    let [some owner, some index, some name] ← body.fields? ["owner", "index", "name"] | none
    return .param ⟨← owner.string?, ← index.word?, ← name.string?⟩
  | _, _ => none

/-- The type that a text describes, nested in no more than 127 levels. -/
def ofJson? (text : String) : Option Ty := (Json.read? text).bind (ofDocument? 127)

end Introspect.Ty

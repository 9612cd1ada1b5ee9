/-!
Values that are shared by reference. As long as two of them are in use they are the same one, and
not merely equal, exactly when their addresses agree. The address of one that is no longer in use
may go to another.
-/

namespace Introspect

abbrev Address := Nat

/-- The first address that nobody uses. -/
def firstFree (used : List Address) : Address :=
  ((List.range (used.length + 1)).find? fun a => !used.contains a).getD 0

structure Shared (α : Type) where
  address : Address
  value : α

namespace Shared

variable {α : Type}

def isSame (a b : Shared α) : Bool := a.address == b.address

end Shared

end Introspect

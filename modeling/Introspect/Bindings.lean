import Introspect.Assoc
import Introspect.Ty.Order

/-!
Types bound to generic parameters, in ascending order of owner and position.
-/

namespace Introspect

structure Bindings where
  entries : List (TyParam × Ty)

namespace Bindings

def empty : Bindings := ⟨[]⟩

def find? (b : Bindings) (p : TyParam) : Option Ty := Assoc.find? p b.entries

def insert (b : Bindings) (p : TyParam) (t : Ty) : Bindings := ⟨Assoc.put p t b.entries⟩

def erase (b : Bindings) (p : TyParam) : Bindings := ⟨Assoc.erase p b.entries⟩

def ofList (entries : List (TyParam × Ty)) : Bindings := ⟨Assoc.ofList entries⟩

/-- The bindings after an attempt to bind more, which leaves them as they were if it fails. -/
def after (b : Bindings) (attempt : Option Bindings) : Bindings := attempt.getD b

theorem find?_insert (b : Bindings) (p q : TyParam) (t : Ty) :
    (b.insert p t).find? q = if p == q then some t else b.find? q :=
  Assoc.find?_put p q t b.entries

theorem find?_insert_eq_some {b : Bindings} {p q : TyParam} {t u : Ty} :
    (b.insert p t).find? q = some u ↔
      ((p == q) = true ∧ t = u) ∨ (¬(p == q) = true ∧ b.find? q = some u) := by
  rw [find?_insert]
  split
  next hpq => simp [hpq]
  next hpq => simp [hpq]

theorem find?_erase (b : Bindings) (p q : TyParam) :
    (b.erase p).find? q = if p == q then none else b.find? q :=
  Assoc.find?_erase p q b.entries

end Bindings

/-- Replaces every bound parameter of the type. -/
def Ty.apply (t : Ty) (b : Bindings) : Ty := t.subst b.find?

end Introspect

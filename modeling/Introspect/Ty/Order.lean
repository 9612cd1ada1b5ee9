import Introspect.Ty.Basic

/-!
The order of types: named types before arrays before parameters, arguments from left to right.
Two types are level in it exactly when they are equal, so it too is blind to the names of parameters.
-/

namespace Introspect

instance : Ord TyParam where
  compare p q := (compare p.owner q.owner).then (compare p.index q.index)

theorem TyParam.compare_eq_iff (p q : TyParam) : compare p q = .eq ↔ (p == q) = true := by
  change (compare p.owner q.owner).then (compare p.index q.index) = .eq ↔
    (p.index == q.index && p.owner == q.owner) = true
  rw [Ordering.then_eq_eq, Std.LawfulEqOrd.compare_eq_iff_eq, Std.LawfulEqOrd.compare_eq_iff_eq,
    Bool.and_eq_true, beq_iff_eq, beq_iff_eq, and_comm]

namespace Ty

mutual

def order : Ty → Ty → Ordering
  | .named n as, .named m bs => (compare n m).then (orderAll as bs)
  | .named .., _ => .lt
  | .array _, .named .. => .gt
  | .array a, .array b => order a b
  | .array _, .param _ => .lt
  | .param p, .param q => compare p q
  | .param _, _ => .gt

def orderAll : List Ty → List Ty → Ordering
  | [], [] => .eq
  | [], _ :: _ => .lt
  | _ :: _, [] => .gt
  | a :: as, b :: bs => (order a b).then (orderAll as bs)

end

instance : Ord Ty := ⟨order⟩

mutual

theorem order_eq_iff : (t u : Ty) → (order t u = .eq ↔ same t u = true)
  | .named n as, .named m bs => by
    simp [order, same, Ordering.then_eq_eq, orderAll_eq_iff as bs]
  | .array a, .array b => order_eq_iff a b
  | .param p, .param q => TyParam.compare_eq_iff p q
  | .named .., .array _ | .named .., .param _ | .array _, .named .. => by simp [order, same]
  | .array _, .param _ | .param _, .named .. | .param _, .array _ => by simp [order, same]

theorem orderAll_eq_iff : (ts us : List Ty) → (orderAll ts us = .eq ↔ sameAll ts us = true)
  | [], [] | [], _ :: _ | _ :: _, [] => by simp [orderAll, sameAll]
  | t :: ts, u :: us => by
    simp [orderAll, sameAll, Ordering.then_eq_eq, order_eq_iff t u, orderAll_eq_iff ts us]

end

end Ty

end Introspect

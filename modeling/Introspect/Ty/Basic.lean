/-!
Types as data: a named type with its arguments, an array, or a generic parameter. A parameter is
identified by its owner and its position; its name is only for display.
-/

namespace Introspect

structure TyParam where
  owner : String
  index : Nat
  name : String

instance : BEq TyParam where
  beq p q := p.index == q.index && p.owner == q.owner

instance : EquivBEq TyParam where
  rfl := by simp [BEq.beq]
  symm := by
    intro p q h
    simp only [BEq.beq, Bool.and_eq_true, decide_eq_true_eq] at h ⊢
    exact ⟨h.1.symm, h.2.symm⟩
  trans := by
    intro p q r h i
    simp only [BEq.beq, Bool.and_eq_true, decide_eq_true_eq] at h i ⊢
    exact ⟨h.1.trans i.1, h.2.trans i.2⟩

inductive Ty where
  | named (name : String) (args : List Ty)
  | array (elem : Ty)
  | param (p : TyParam)

instance : Inhabited Ty := ⟨.named "object" []⟩

namespace Ty

/-! ### The built-in types -/

def plain (name : String) : Ty := .named name []
def object : Ty := plain "object"
def void : Ty := plain "void"
def int : Ty := plain "int"
def float : Ty := plain "float"
def bool : Ty := plain "bool"
def string : Ty := plain "string"
def arrayList : Ty := plain "ArrayList"
def listInterface : Ty := plain "IList"
def list (elem : Ty) : Ty := .named "List" [elem]
def enumerable (elem : Ty) : Ty := .named "IEnumerable" [elem]

/-! ### Equality -/

mutual

/-- Equality of types, blind to the names of parameters. -/
def same : Ty → Ty → Bool
  | .named n as, .named m bs => n == m && sameAll as bs
  | .array a, .array b => same a b
  | .param p, .param q => p == q
  | _, _ => false

def sameAll : List Ty → List Ty → Bool
  | [], [] => true
  | a :: as, b :: bs => same a b && sameAll as bs
  | _, _ => false

end

instance : BEq Ty := ⟨same⟩

mutual

theorem same_refl : (t : Ty) → same t t = true
  | .named _ as => by simp [same, sameAll_refl as]
  | .array a => same_refl a
  | .param p => BEq.refl p

theorem sameAll_refl : (ts : List Ty) → sameAll ts ts = true
  | [] => rfl
  | t :: ts => by simp [sameAll, same_refl t, sameAll_refl ts]

end

mutual

theorem same_comm : (t u : Ty) → same t u = same u t
  | .named n as, .named m bs => by
    simp only [same, sameAll_comm as bs]
    rw [BEq.comm]
  | .array a, .array b => same_comm a b
  | .param _, .param _ => BEq.comm
  | .named .., .array _ | .named .., .param _ | .array _, .named .. => rfl
  | .array _, .param _ | .param _, .named .. | .param _, .array _ => rfl

theorem sameAll_comm : (ts us : List Ty) → sameAll ts us = sameAll us ts
  | [], [] | [], _ :: _ | _ :: _, [] => rfl
  | t :: ts, u :: us => by simp only [sameAll, same_comm t u, sameAll_comm ts us]

end

mutual

theorem same_trans : {t u v : Ty} → same t u = true → same u v = true → same t v = true
  | .named _ _, .named _ _, .named _ _, h, i => by
    simp only [same, Bool.and_eq_true, beq_iff_eq] at h i ⊢
    exact ⟨h.1.trans i.1, sameAll_trans h.2 i.2⟩
  | .array a, .array b, .array c, h, i => same_trans (t := a) (u := b) (v := c) h i
  | .param p, .param q, .param r, h, i => BEq.trans (a := p) (b := q) (c := r) h i

theorem sameAll_trans : {ts us vs : List Ty} →
    sameAll ts us = true → sameAll us vs = true → sameAll ts vs = true
  | [], [], [], _, _ => rfl
  | _ :: _, _ :: _, _ :: _, h, i => by
    simp only [sameAll, Bool.and_eq_true] at h i ⊢
    exact ⟨same_trans h.1 i.1, sameAll_trans h.2 i.2⟩

end

instance : EquivBEq Ty where
  rfl := same_refl _
  symm := fun h => (same_comm _ _).trans h
  trans := same_trans

/-! ### Parts -/

def args : Ty → List Ty
  | .named _ as => as
  | _ => []

/-- The name of the definition that this type instantiates. -/
def definitionName? : Ty → Option String
  | .named n _ => some n
  | _ => none

def param? : Ty → Option TyParam
  | .param p => some p
  | _ => none

def isParam : Ty → Bool
  | .param _ => true
  | _ => false

def isObject : Ty → Bool
  | .named n [] => n == "object"
  | _ => false

def isVoid : Ty → Bool
  | .named n [] => n == "void"
  | _ => false

/-! ### Parameters -/

mutual

/-- Every occurrence of a parameter, left to right. -/
def occurrences : Ty → List TyParam
  | .named _ as => occurrencesAll as
  | .array a => occurrences a
  | .param p => [p]

def occurrencesAll : List Ty → List TyParam
  | [] => []
  | a :: as => occurrences a ++ occurrencesAll as

end

/-- The distinct parameters in the order of their first occurrence. -/
def params (t : Ty) : List TyParam := t.occurrences.eraseDups

def isOpen (t : Ty) : Bool := !t.occurrences.isEmpty

def mentions (t : Ty) (p : TyParam) : Bool := t.occurrences.any (· == p)

/-- Whether the type is `Name<P0, P1, ..>`, each argument the definition's own parameter at its
own position. -/
def isGenericDefinition : Ty → Bool
  | .named n as => !as.isEmpty && as.zipIdx.all fun (a, i) =>
      match a with
      | .param p => p.owner == n && p.index == i
      | _ => false
  | _ => false

/-! ### Substitution -/

mutual

/-- Replaces every parameter for which `f` has a type. -/
def subst (f : TyParam → Option Ty) : Ty → Ty
  | .named n as => .named n (substAll f as)
  | .array a => .array (subst f a)
  | .param p => (f p).getD (.param p)

def substAll (f : TyParam → Option Ty) : List Ty → List Ty
  | [] => []
  | a :: as => subst f a :: substAll f as

end

/-- Replaces the parameters of the definition `owner` by position. -/
def instantiate (owner : String) (args : List Ty) (t : Ty) : Ty :=
  t.subst fun p => if p.owner == owner then args[p.index]? else none

/-! ### Display -/

mutual

/-- The type in source form, as in `Map<string, List<int>>[]`. -/
def text : Ty → String
  | .named n [] => n
  | .named n (a :: as) => n ++ "<" ++ text a ++ textRest as ++ ">"
  | .array a => text a ++ "[]"
  | .param p => p.name

def textRest : List Ty → String
  | [] => ""
  | a :: as => ", " ++ text a ++ textRest as

end

instance : ToString Ty := ⟨text⟩

end Ty

end Introspect

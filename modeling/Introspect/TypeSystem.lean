import Introspect.Definition.Builtin

/-!
Questions about types that a table of definitions answers: supertypes, convertibility, value and
reference types, members and indexing. The table is all that varies between type systems: every
other answer is derived from it in one way, and a host that answers some question by other means is
not considered. A hierarchy may expand for ever, so a walk in it has a limit, beyond which it has no
answer; an answer stays the same under every higher limit.
-/

namespace Introspect

/-- Definitions by name, and the limit of a walk through them. -/
structure TypeSystem where
  find? : String → Option TypeDef
  /-- How many types a walk up a hierarchy may take up, and how deep defaults may nest. -/
  limit : Nat

/-- Which members a search is for. -/
structure MemberScope where
  isStatic : Bool
  /-- Whether the base classes are searched too. -/
  inherited : Bool
  deriving DecidableEq

namespace MemberScope

def instances : MemberScope := ⟨false, true⟩

def of (isStatic : Bool) : MemberScope := ⟨isStatic, true⟩

end MemberScope

/-- How `[n]` reads from a value of some type. -/
inductive IndexKind where
  | array (elem : Ty)
  | typedList (elem : Ty)
  | untypedList

namespace TypeSystem

variable (ts : TypeSystem)

/-! ### Hierarchy -/

/-- The declared base and interfaces of a named type, and the interfaces of an array. -/
def directSupertypes : Ty → List Ty
  | .named n args =>
    match ts.find? n with
    | some d => (d.base.toList ++ d.interfaces).map (Ty.instantiate d.name args)
    | none => []
  | .array elem => [.enumerable elem, .listInterface]
  | .param _ => []

/-- Takes types from the queue, enters each new one and queues its direct supertypes. -/
def closure? : (fuel : Nat) → (queue seen : List Ty) → Option (List Ty)
  | _, [], seen => some seen
  | 0, _ :: _, _ => none
  | fuel + 1, t :: rest, seen =>
    -- A type may be queued by several others; only its first turn counts.
    if seen.contains t then closure? fuel rest seen
    else closure? fuel (rest ++ ts.directSupertypes t) (seen ++ [t])

theorem closure?_mono {n m : Nat} (hnm : n ≤ m) {queue seen found : List Ty}
    (h : ts.closure? n queue seen = some found) : ts.closure? m queue seen = some found := by
  induction n generalizing m queue seen with
  | zero =>
    match queue with
    | [] => cases m <;> exact h
    | _ :: _ => cases h
  | succ n ih =>
    obtain ⟨m, rfl⟩ : ∃ k, m = k + 1 := ⟨m - 1, by omega⟩
    match queue with
    | [] => exact h
    | t :: rest =>
      simp only [closure?] at h ⊢
      split
      next hs => rw [if_pos hs] at h; exact ih (by omega) h
      next hs => rw [if_neg hs] at h; exact ih (by omega) h

/-- What the steps of a walk keep of queue and types taken up holds at its end. -/
theorem closure?_induction {motive : (queue seen : List Ty) → Prop}
    (again : ∀ t rest seen, seen.contains t = true → motive (t :: rest) seen → motive rest seen)
    (enter : ∀ t rest seen, seen.contains t = false → motive (t :: rest) seen →
      motive (rest ++ ts.directSupertypes t) (seen ++ [t]))
    {fuel : Nat} {queue seen found : List Ty} (h : ts.closure? fuel queue seen = some found)
    (hstart : motive queue seen) : motive [] found := by
  induction fuel generalizing queue seen with
  | zero =>
    match queue with
    | [] => cases h; exact hstart
    | _ :: _ => cases h
  | succ fuel ih =>
    match queue with
    | [] => cases h; exact hstart
    | t :: rest =>
      simp only [closure?] at h
      split at h
      next hseen => exact ih h (again t rest seen hseen hstart)
      next hnew => exact ih h (enter t rest seen (Bool.eq_false_iff.mpr hnew) hstart)

/-- Every type that `t` converts to: itself, its bases and interfaces, breadth first and without
repeats, and `object` at the end if it is not among them. -/
def supertypes? (t : Ty) : Option (List Ty) :=
  (ts.closure? ts.limit [t] []).map fun found =>
    if t.isParam || found.contains .object then found else found ++ [.object]

def supertypes (t : Ty) : List Ty := (ts.supertypes? t).getD [t]

/-- `object` takes everything but `void` at once. Otherwise the supertypes decide. -/
def isAssignable (target source : Ty) : Bool :=
  target == source || (target.isObject && !source.isVoid) ||
    (ts.supertypes source).contains target

def base? (t : Ty) : Option Ty :=
  match t with
  | .named n args => do
    let d ← ts.find? n
    let base ← d.base
    return base.instantiate d.name args
  | _ => none

/-- Follows the bases of `t` until there is none or one comes round again. -/
def climb? : (fuel : Nat) → Ty → (chain : List Ty) → Option (List Ty)
  | 0, _, _ => none
  | fuel + 1, t, chain =>
    match ts.base? t with
    | none => some chain
    | some base =>
      if chain.contains base then some chain else climb? fuel base (chain ++ [base])

theorem climb?_mono {n m : Nat} (hnm : n ≤ m) {t : Ty} {chain found : List Ty}
    (h : ts.climb? n t chain = some found) : ts.climb? m t chain = some found := by
  induction n generalizing m t chain with
  | zero => cases h
  | succ n ih =>
    obtain ⟨m, rfl⟩ : ∃ k, m = k + 1 := ⟨m - 1, by omega⟩
    simp only [climb?] at h ⊢
    split
    next hb => rwa [hb] at h
    next base hb =>
      simp only [hb] at h
      split
      next hc => rwa [if_pos hc] at h
      next hc => rw [if_neg hc] at h; exact ih (by omega) h

def baseChain? (t : Ty) : Option (List Ty) := ts.climb? ts.limit t [t]

/-- The type followed by its base classes, the most derived first. -/
def baseChain (t : Ty) : List Ty := (ts.baseChain? t).getD [t]

/-! ### Kinds -/

def kind? : Ty → Option TypeKind
  | .named n _ => (ts.find? n).map (·.kind)
  | _ => none

def isValueType (t : Ty) : Bool := ts.kind? t == some .structType

def isReferenceType : Ty → Bool
  | .array _ => true
  | t => (ts.kind? t).any (· != .structType)

def hasDefaultConstructor : Ty → Bool
  | .named n _ => (ts.find? n).any fun d => d.kind == .structType || d.defaultConstructible
  | _ => false

/-! ### Members -/

/-- The members that one type declares under a name, their types instantiated. -/
def declaredMembers (t : Ty) (name : String) (isStatic : Bool) : List Member :=
  match t with
  | .named n args =>
    match ts.find? n with
    | some d => ((d.declared name).filter fun m => m.isStatic == isStatic).map
        (Member.instantiate d.name args)
    | none => []
  | _ => []

/-- The members of a type under a name, those of derived classes first. -/
def findMembers (t : Ty) (name : String) (scope : MemberScope) : List Member :=
  match t with
  | .array _ => if name == "Length" && !scope.isStatic then [Builtin.arrayLength] else []
  | .named .. =>
    (if scope.inherited then ts.baseChain t else [t]).flatMap fun owner =>
      ts.declaredMembers owner name scope.isStatic
  | .param _ => []

/-- The indexing of a type is that of its first supertype with an indexer. -/
def indexKind? : Ty → Option IndexKind
  -- An array is a list too, but its own indexing goes first.
  | .array elem => some (.array elem)
  | t => (ts.supertypes t).findSome? fun sup =>
    match sup with
    | .named n args => do
      match (← ts.find? n).indexer with
      | .typed => some (.typedList (args.head?.getD .object))
      | .untyped => some .untypedList
      | .none => none
    | _ => none

end TypeSystem

end Introspect

import Introspect.KeyedMap
import Introspect.Path.Compiled
import Introspect.Shared

/-!
A compiler of paths that keeps what it has compiled, by root type, text and kind of root. The same
question gets the same shared path, even if the types have changed since. Nothing is looked up by
the address of a path, so each new path has a new one.
-/

namespace Introspect

structure PathKey where
  root : Ty
  text : String
  isStatic : Bool

instance : BEq PathKey where
  beq k l := k.root == l.root && k.text == l.text && k.isStatic == l.isStatic

theorem PathKey.beq_iff {k l : PathKey} :
    (k == l) = true ↔ (k.root == l.root) = true ∧ k.text = l.text ∧ k.isStatic = l.isStatic := by
  change (k.root == l.root && k.text == l.text && k.isStatic == l.isStatic) = true ↔ _
  simp only [Bool.and_eq_true, beq_iff_eq, and_assoc]

instance : EquivBEq PathKey where
  rfl := PathKey.beq_iff.mpr ⟨BEq.rfl, rfl, rfl⟩
  symm := fun h =>
    let ⟨hr, ht, hs⟩ := PathKey.beq_iff.mp h
    PathKey.beq_iff.mpr ⟨BEq.symm hr, ht.symm, hs.symm⟩
  trans := fun h i =>
    let ⟨hr, ht, hs⟩ := PathKey.beq_iff.mp h
    let ⟨ir, it, is⟩ := PathKey.beq_iff.mp i
    PathKey.beq_iff.mpr ⟨BEq.trans hr ir, ht.trans it, hs.trans is⟩

structure PathCompiler where
  rules : CompiledPath.Rules
  cache : KeyedMap PathKey (Shared CompiledPath)
  nextAddress : Address

/-- A computation with a path compiler that may fail. -/
abbrev PathM := ExceptT Error (StateM PathCompiler)

def PathM.lift {α : Type} (r : Except Error α) : PathM α := fun c => (r, c)

namespace PathCompiler

def new (rules : CompiledPath.Rules) : PathCompiler := ⟨rules, .empty, 0⟩

def cachedPaths (c : PathCompiler) : Nat := c.cache.size

def clearCache (c : PathCompiler) : PathCompiler := { c with cache := .empty }

def compile (ts : TypeSystem) (root : Ty) (text : String) (isStatic : Bool) :
    PathM (Shared CompiledPath) := fun c =>
  let (result, cache) := c.cache.getOrCompute ⟨root, text, isStatic⟩ fun _ =>
    (CompiledPath.compile ts c.rules root text isStatic).map (Shared.mk c.nextAddress)
  -- An address that the cache did not need is left out, never given twice.
  (result, { c with cache := cache, nextAddress := c.nextAddress + 1 })

end PathCompiler

end Introspect

import Introspect.Proofs.Path.Composition
import Introspect.Proofs.Ty.Naming

/-!
Static fields under several instantiations. The accessors of a member are shared with its
declaration, so every instantiation and every derived class goes to the one slot of a static field,
while each sees the field with its own type. What is written through one of them is read through the
others, whether it conforms to their types or not.
-/

namespace Introspect

/-- Whether the static fields that share a slot are declared with one type without parameters. -/
def TypeSystem.SlotsFixed (ts : TypeSystem) : Prop :=
  ∀ n d m e f g, ts.find? n = some d → ts.find? m = some e → .field f ∈ d.members →
    .field g ∈ e.members → f.isStatic = true → g.storage = f.storage →
    g.ty = f.ty ∧ f.ty.isOpen = false

namespace CompiledPath

variable {ts : TypeSystem} {rules : Rules} {p q : CompiledPath} {h h' : Heap} {i j : SlotId}

/-- Whether the path is a static field, kept in a slot, and nothing else. -/
def GoesToSlot (p : CompiledPath) (i : SlotId) : Prop :=
  ∃ f : FieldInfo, f.storage = .slot i ∧ p.steps = [.member (.field f) true]

theorem get_of_goesToSlot (hp : p.GoesToSlot i) (root : Value) (h : Heap) :
    p.get root h = (.ok (h.slot i), h) := by
  obtain ⟨f, hf, hsteps⟩ := hp
  have hread : (PathStep.member (.field f) true).read (p.start root) h = (.ok (h.slot i), h) := by
    simp [PathStep.read, PathStep.receiver, FieldInfo.get, hf, Action.bind_apply,
      Action.pure_apply, Action.read_apply]
  rw [get, hsteps]
  exact (Action.bind_ok hread).trans rfl

/-- A write that succeeds has found that the value fits, and it changes the slot alone. -/
theorem set_of_goesToSlot (hp : p.GoesToSlot i) (hstatic : p.isStatic = true) {root v w : Value}
    (hset : p.set ts root v h = (.ok w, h')) : p.fits ts h v = true ∧ h' = h.setSlot i v := by
  cases hfits : p.fits ts h v with
  | false =>
    rw [set_of_unfit hfits] at hset
    cases hset
  | true =>
    obtain ⟨f, hf, hsteps⟩ := hp
    have hstart : p.start root = .null := by
      rw [start, hstatic, if_pos rfl]
    have howners : owners p.steps .null h = (.ok [.null], h) := by
      rw [hsteps]
      rfl
    have hstored : (PathStep.member (.field f) true).isStored = true := by
      simp [PathStep.isStored, FieldInfo.isStatic, hf]
    rw [set_of_fits hfits, hstart, howners, hsteps] at hset
    simp only [List.zip_cons_cons, List.zip_nil_right, List.reverse_singleton] at hset
    rcases PathStep.write_cases hstored .null v h with ⟨e, he⟩ | ⟨r, h₁, hr, hwrites⟩
    · have hback : writeBack [(.member (.field f) true, .null)] v h = (.error e, h) :=
        Action.bind_error he
      rw [hback] at hset
      cases hset
    · have hback : writeBack [(.member (.field f) true, .null)] v h = (.ok none, h₁) :=
        (Action.bind_ok hr).trans rfl
      rw [hback] at hset
      cases hset
      cases hwrites with
      | stored q r hq _ =>
        simp only [PathStep.place?, hf, Option.some.injEq] at hq
        subst hq
        exact ⟨rfl, rfl⟩
      | copied ty fields _ _ ho => cases ho

/-- The types of values do not depend on what the slots hold. -/
theorem fits_setSlot (v w : Value) : p.fits ts (h.setSlot i w) v = p.fits ts h v := by
  have htype : v.typeOf (h.setSlot i w) = v.typeOf h := by
    cases v <;> rfl
  rw [fits, fits, htype]

theorem fits_congr (hty : p.resultTy.Same q.resultTy) (v : Value) :
    p.fits ts h v = q.fits ts h v := by
  rw [fits, fits, ts.isValueType_congr hty, ts.isAssignable_congr hty BEq.rfl]

/-- Where each slot has one type for good, the paths that go to it have that type. -/
theorem resultTy_eq_of_slotsFixed (hfixed : ts.SlotsFixed) {root root' : Ty} {text text' : String}
    (hp : compile ts rules root text true = .ok p) (hq : compile ts rules root' text' true = .ok q)
    (hpi : p.GoesToSlot i) (hqi : q.GoesToSlot i) : p.resultTy = q.resultTy := by
  obtain ⟨f, hf, hpsteps⟩ := hpi
  obtain ⟨g, hg, hqsteps⟩ := hqi
  have hpfound := typedFrom_of_compile hp
  have hqfound := typedFrom_of_compile hq
  rw [hpsteps] at hpfound
  rw [hqsteps] at hqfound
  obtain ⟨⟨_, hpfound⟩, -⟩ := hpfound
  obtain ⟨⟨_, hqfound⟩, -⟩ := hqfound
  obtain ⟨n, args, d, f, -, hd, hfd, hstatic, rfl⟩ := exists_declared_of_mem_findMembers hpfound
  obtain ⟨m, args', e, g, -, he, hge, -, rfl⟩ := exists_declared_of_mem_findMembers hqfound
  obtain ⟨hty, hclosed⟩ := hfixed n d m e f g hd he hfd hge hstatic (hg.trans hf.symm)
  -- A closed type is the same in every instantiation.
  have hpty : p.resultTy = f.ty := by
    rw [resultTy, endTy, hpsteps]
    exact Ty.subst_of_closed hclosed _
  have hqty : q.resultTy = g.ty := by
    rw [resultTy, endTy, hqsteps]
    exact Ty.subst_of_closed (hty ▸ hclosed) _
  rw [hpty, hqty, hty]

/-- After a write to a static field a second static field still has a value: the written one if both
are kept in one slot, and otherwise the one that it had. The value conforms to the second field as
the second root sees it exactly if the slots differ or the written value does, and so whenever the
two fields are seen with equal types, or each slot has one type for good. -/
theorem get_static_after_set {root root' : Ty} {text text' : String}
    (hp : compile ts rules root text true = .ok p) (hq : compile ts rules root' text' true = .ok q)
    (hpi : p.GoesToSlot i) (hqj : q.GoesToSlot j) (hi : i < h.slots.size) {v w old : Value}
    (hget : q.get .null h = (.ok old, h)) (hold : q.fits ts h old = true)
    (hset : p.set ts .null v h = (.ok w, h')) :
    ∃ new, q.get .null h' = (.ok new, h') ∧ new = (if j = i then v else old) ∧
      (q.fits ts h' new = true ↔ j ≠ i ∨ q.fits ts h v = true) ∧
      (p.resultTy.Same q.resultTy → q.fits ts h' new = true) ∧
      (ts.SlotsFixed → q.fits ts h' new = true) := by
  obtain ⟨hv, rfl⟩ := set_of_goesToSlot hpi (isStatic_of_compile hp) hset
  have hslot : h.slot j = old := by
    rw [get_of_goesToSlot hqj] at hget
    cases hget
    rfl
  have hnew : (h.setSlot i v).slot j = if j = i then v else old := by
    rw [Heap.slot_setSlot, hslot]
    simp only [hi, and_true, eq_comm]
  have hfits : q.fits ts (h.setSlot i v) (if j = i then v else old) = true ↔
      j ≠ i ∨ q.fits ts h v = true := by
    rw [fits_setSlot]
    by_cases hj : j = i
    · rw [if_pos hj]
      exact ⟨Or.inr, fun hor => hor.resolve_left (not_not.mpr hj)⟩
    · rw [if_neg hj]
      exact ⟨fun _ => Or.inl hj, fun _ => hold⟩
  have hsame (hty : p.resultTy.Same q.resultTy) : q.fits ts h v = true :=
    (fits_congr hty v).symm.trans hv
  refine ⟨_, get_of_goesToSlot hqj .null _, hnew, ?_, ?_, ?_⟩
  · rw [hnew]
    exact hfits
  · intro hty
    rw [hnew]
    exact hfits.mpr (Or.inr (hsame hty))
  · intro hfixed
    rw [hnew]
    apply hfits.mpr
    by_cases hj : j = i
    · subst hj
      have hty := resultTy_eq_of_slotsFixed hfixed hp hq hpi hqj
      exact Or.inr (hsame (hty ▸ BEq.rfl))
    · exact Or.inl hj

namespace Sample

/-- A class with a static field of its parameter's type, and a class derived from one of its
instantiations. -/
def boxTypes : TypeSystem :=
  let box : TypeDef := { TypeDef.new "Box" .classType with
    params := [Builtin.ownParam "T"]
    members := [.field ⟨"shared", .param ⟨"Box", 0, "T"⟩, false, .slot 0⟩] }
  let intBox : TypeDef := { TypeDef.new "IntBox" .classType with
    base := some (.named "Box" [.int]) }
  ((Registry.builtin.register box).register intBox).types 8

/-- A heap with one slot. -/
def slotOf (v : Value) : Heap := ⟨#[], #[], #[v]⟩

/-- The field of the class as a root sees it. -/
def shared (root ty : Ty) : CompiledPath :=
  ⟨root, "shared", true, [.member (.field ⟨"shared", ty, false, .slot 0⟩) true]⟩

theorem shared_goesToSlot (root ty : Ty) : (shared root ty).GoesToSlot 0 := ⟨_, rfl, rfl⟩

end Sample

/-- The derived class and its base see the field with one type. -/
theorem get_static_after_set_intBox :
    compile Sample.boxTypes ⟨true⟩ (.plain "IntBox") "shared" true =
      .ok (Sample.shared (.plain "IntBox") .int) ∧
    compile Sample.boxTypes ⟨true⟩ (.named "Box" [.int]) "shared" true =
      .ok (Sample.shared (.named "Box" [.int]) .int) ∧
    (Sample.shared (.plain "IntBox") .int).set Sample.boxTypes .null (.int 5)
      (Sample.slotOf (.int 0)) = (.ok .null, Sample.slotOf (.int 5)) ∧
    ∃ new, (Sample.shared (.named "Box" [.int]) .int).get .null (Sample.slotOf (.int 5)) =
        (.ok new, Sample.slotOf (.int 5)) ∧
      (Sample.shared (.named "Box" [.int]) .int).fits Sample.boxTypes (Sample.slotOf (.int 5)) new =
        true := by
  have hderived : compile Sample.boxTypes ⟨true⟩ (.plain "IntBox") "shared" true =
      .ok (Sample.shared (.plain "IntBox") .int) := rfl
  have hbase : compile Sample.boxTypes ⟨true⟩ (.named "Box" [.int]) "shared" true =
      .ok (Sample.shared (.named "Box" [.int]) .int) := rfl
  have hset : (Sample.shared (.plain "IntBox") .int).set Sample.boxTypes .null (.int 5)
      (Sample.slotOf (.int 0)) = (.ok .null, Sample.slotOf (.int 5)) := rfl
  have hget : (Sample.shared (.named "Box" [.int]) .int).get .null (Sample.slotOf (.int 0)) =
      (.ok (.int 0), Sample.slotOf (.int 0)) := rfl
  obtain ⟨new, hnew, -, -, hfits, -⟩ := get_static_after_set hderived hbase
    (Sample.shared_goesToSlot _ _) (Sample.shared_goesToSlot _ _) (by decide) hget rfl hset
  exact ⟨hderived, hbase, hset, new, hnew, hfits BEq.rfl⟩

/-- Two instantiations of the class see the slot with two types. -/
theorem not_fits_after_set_box :
    compile Sample.boxTypes ⟨true⟩ (.named "Box" [.int]) "shared" true =
      .ok (Sample.shared (.named "Box" [.int]) .int) ∧
    compile Sample.boxTypes ⟨true⟩ (.named "Box" [.string]) "shared" true =
      .ok (Sample.shared (.named "Box" [.string]) .string) ∧
    (Sample.shared (.named "Box" [.string]) .string).get .null (Sample.slotOf .null) =
      (.ok .null, Sample.slotOf .null) ∧
    (Sample.shared (.named "Box" [.string]) .string).fits Sample.boxTypes (Sample.slotOf .null)
      .null = true ∧
    (Sample.shared (.named "Box" [.int]) .int).set Sample.boxTypes .null (.int 5)
      (Sample.slotOf .null) = (.ok .null, Sample.slotOf (.int 5)) ∧
    (Sample.shared (.named "Box" [.string]) .string).get .null (Sample.slotOf (.int 5)) =
      (.ok (.int 5), Sample.slotOf (.int 5)) ∧
    (Sample.shared (.named "Box" [.string]) .string).fits Sample.boxTypes (Sample.slotOf (.int 5))
      (.int 5) = false :=
  ⟨rfl, rfl, rfl, rfl, rfl, rfl, rfl⟩

end CompiledPath

end Introspect

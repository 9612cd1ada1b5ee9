import Introspect.Proofs.Path.Composition
import Introspect.Proofs.Ty.Naming

/-!
Paths against equal types. The names of parameters matter neither to what a path resolves to nor to
what is read through it, but only to the texts of errors. So one text compiles against both of two
equal types or against neither, and the two paths read alike.
-/

namespace Introspect

namespace Except

variable {ε α β : Type}

theorem toOption_bind (x : Except ε α) (f : α → Except ε β) :
    (x >>= f).toOption = x.toOption.bind fun a => (f a).toOption := by
  cases x <;> rfl

variable {R : α → β → Prop} {x : Except ε α} {y : Except ε β}

/-- Computations that are related succeed together. -/
theorem exists_ok_congr (h : Option.Rel R x.toOption y.toOption) :
    (∃ a, x = .ok a) ↔ ∃ b, y = .ok b := by
  rcases x with e | a <;> rcases y with e' | b <;> cases h
  · exact ⟨fun ⟨_, h⟩ => (nomatch h), fun ⟨_, h⟩ => (nomatch h)⟩
  · exact ⟨fun _ => ⟨b, rfl⟩, fun _ => ⟨a, rfl⟩⟩

theorem rel_of_ok (h : Option.Rel R x.toOption y.toOption) {a : α} {b : β} (hx : x = .ok a)
    (hy : y = .ok b) : R a b := by
  rw [hx, hy] at h
  exact Option.rel_some_some.mp h

end Except

/-! ### Members -/

/-- Whether two members are one declaration seen with equal types. -/
def Member.Same (m m' : Member) : Prop :=
  ∃ (declared : Member) (f g : Ty → Ty), (∀ t, (f t).Same (g t)) ∧ m = declared.mapTypes f ∧
    m' = declared.mapTypes g

namespace TypeSystem

open Ty (Same)

variable (ts : TypeSystem) {t u : Ty}

theorem declaredMembers_congr (h : t.Same u) (name : String) (isStatic : Bool) :
    List.Forall₂ Member.Same (ts.declaredMembers t name isStatic)
      (ts.declaredMembers u name isStatic) := by
  obtain ⟨n, as, bs, rfl, rfl, hargs⟩ | ⟨_, _, rfl, rfl, -⟩ | ⟨_, _, rfl, rfl, -⟩ :=
    Ty.same_cases h
  · simp only [declaredMembers]
    split
    next d _ =>
      apply forall₂_refl_map
      intro m hm
      exact ⟨m, _, _, fun t => Ty.instantiate_congr d.name hargs BEq.rfl, rfl, rfl⟩
    next => exact .nil
  · exact .nil
  · exact .nil

theorem findMembers_congr (h : t.Same u) (name : String) (isStatic : Bool) :
    List.Forall₂ Member.Same (ts.findMembers t name (.of isStatic))
      (ts.findMembers u name (.of isStatic)) := by
  have hchain := ts.baseChain_congr h
  obtain ⟨n, as, bs, rfl, rfl, -⟩ | ⟨_, _, rfl, rfl, -⟩ | ⟨_, _, rfl, rfl, -⟩ := Ty.same_cases h
  · exact List.rel_flatMap hchain fun _ _ howner => ts.declaredMembers_congr howner name isStatic
  · simp only [findMembers]
    split
    · exact .cons ⟨Builtin.arrayLength, id, id, fun _ => BEq.rfl, rfl, rfl⟩ .nil
    · exact .nil
  · exact .nil

end TypeSystem

/-! ### Overloads -/

namespace Overload

variable (ts : TypeSystem) {m m' : MethodInfo}

theorem accepts_congr (h : (Member.method m).Same (.method m')) (argTypes : List Ty) :
    accepts ts m argTypes = accepts ts m' argTypes := by
  obtain ⟨declared, f, g, hfg, hm, hm'⟩ := h
  cases declared with
  | method d =>
    cases hm
    cases hm'
    have hassignable (p : ParamInfo) (arg : Ty) :
        ts.isAssignable (f p.ty) arg = ts.isAssignable (g p.ty) arg :=
      ts.isAssignable_congr (hfg p.ty) BEq.rfl
    simp only [accepts, mismatch?, MethodInfo.arity, List.length_map, List.zip_map_left,
      List.findIdx?_map, Function.comp_def, Prod.map, id, hassignable]
  | _ => cases hm

theorem select_congr {members members' : List Member}
    (h : List.Forall₂ Member.Same members members') (owner owner' : Ty) (name : String)
    (argTypes : List Ty) :
    Option.Rel (fun m m' => (Member.method m).Same (.method m'))
      (select ts owner name members argTypes).toOption
      (select ts owner' name members' argTypes).toOption := by
  have hmethods : List.Forall₂ (fun m m' => (Member.method m).Same (.method m'))
      (members.filterMap Member.method?) (members'.filterMap Member.method?) := by
    refine List.rel_filterMap (fun m m' hm => ?_) h
    obtain ⟨declared, f, g, hfg, rfl, rfl⟩ := hm
    cases declared with
    | method d => exact .some ⟨.method d, f, g, hfg, rfl, rfl⟩
    | _ => exact .none
  unfold select
  generalize members.filterMap Member.method? = methods at hmethods ⊢
  generalize members'.filterMap Member.method? = methods' at hmethods ⊢
  have hfound : Option.Rel (fun m m' => (Member.method m).Same (.method m'))
      (methods.find? fun m => accepts ts m argTypes)
      (methods'.find? fun m => accepts ts m argTypes) := by
    induction hmethods with
    | nil => exact .none
    | @cons m m' ms ms' hm _ ih =>
      rw [List.find?_cons, List.find?_cons, accepts_congr ts hm]
      split
      · exact .some hm
      · exact ih
  cases hmethods with
  | nil => exact .none
  | cons hm hms =>
    simp only [List.isEmpty_cons, Bool.false_eq_true, if_false]
    generalize List.find? _ _ = x at hfound ⊢
    generalize List.find? _ _ = y at hfound ⊢
    cases hfound with
    | none => exact .none
    | some hm => exact .some hm

end Overload

/-! ### Steps -/

/-- Whether two steps read alike and end at equal types. -/
structure PathStep.Alike (s s' : PathStep) : Prop where
  read : s.read = s'.read
  resultTy : s.resultTy.Same s'.resultTy

namespace CompiledPath

open PathStep (Alike)

variable (ts : TypeSystem) (rules : Rules) {t u : Ty}

theorem alike_method {m m' : MethodInfo} (h : (Member.method m).Same (.method m'))
    (args : List Value) (isStatic : Bool) :
    Alike (.member (.method m args) isStatic) (.member (.method m' args) isStatic) := by
  obtain ⟨declared, f, g, hfg, hm, hm'⟩ := h
  cases declared with
  | method d =>
    cases hm
    cases hm'
    exact ⟨rfl, hfg d.result⟩
  | _ => cases hm

theorem rel_callStep (t u : Ty) {members members' : List Member}
    (h : List.Forall₂ Member.Same members members') (name : String) (args : List Value)
    (isStatic : Bool) :
    Option.Rel Alike (callStep ts t name members args isStatic).toOption
      (callStep ts u name members' args isStatic).toOption := by
  have hselect := Overload.select_congr ts h t u name (args.map (Value.typeOf .empty))
  unfold callStep
  generalize Overload.select ts t name members _ = x at hselect ⊢
  generalize Overload.select ts u name members' _ = y at hselect ⊢
  rcases x with e | m <;> rcases y with e' | m' <;> cases hselect
  · exact .none
  next hm => exact .some (alike_method hm args isStatic)

theorem rel_memberStep (h : t.Same u) (segment : Segment) (isStatic : Bool) (path : String) :
    Option.Rel Alike (memberStep ts rules t segment isStatic path).toOption
      (memberStep ts rules u segment isStatic path).toOption := by
  have hmembers := ts.findMembers_congr h segment.name isStatic
  have hfield := rel_findSome? hmembers (f := Member.field?) (g := Member.field?)
    (S := fun f f' => Alike (.member (.field f) isStatic) (.member (.field f') isStatic)) (by
      rintro m m' ⟨declared, f, g, hfg, rfl, rfl⟩
      cases declared with
      | field d => exact .some ⟨rfl, hfg d.ty⟩
      | _ => exact .none)
  have hproperty := rel_findSome? hmembers (f := Member.property?) (g := Member.property?)
    (S := fun p p' => Alike (.member (.property p) isStatic) (.member (.property p') isStatic)) (by
      rintro m m' ⟨declared, f, g, hfg, rfl, rfl⟩
      cases declared with
      | property d => exact .some ⟨rfl, hfg d.ty⟩
      | _ => exact .none)
  have hcall (args : List Value) := rel_callStep ts t u hmembers segment.name args isStatic
  simp only [memberStep]
  generalize ts.findMembers t segment.name (.of isStatic) = members at *
  generalize ts.findMembers u segment.name (.of isStatic) = members' at *
  cases segment.args? with
  | some args => exact hcall args
  | none =>
    dsimp only
    generalize members.findSome? Member.field? = x at hfield ⊢
    generalize members'.findSome? Member.field? = y at hfield ⊢
    cases hfield with
    | some hf => exact .some hf
    | none =>
      dsimp only
      generalize members.findSome? Member.property? = x at hproperty ⊢
      generalize members'.findSome? Member.property? = y at hproperty ⊢
      cases hproperty with
      | some hp => exact .some hp
      | none =>
        cases hmembers with
        | nil => exact .none
        | cons _ _ =>
          simp only [List.isEmpty_cons, Bool.false_eq_true, if_false]
          split
          · exact hcall []
          · exact .none

theorem rel_indexStep (h : t.Same u) (index : Nat) (path : String) :
    Option.Rel Alike (indexStep ts t index path).toOption (indexStep ts u index path).toOption := by
  have hkind := ts.indexKind?_congr h
  unfold indexStep
  generalize ts.indexKind? t = x at hkind ⊢
  generalize ts.indexKind? u = y at hkind ⊢
  cases hkind with
  | none => exact .none
  | some hkind =>
    cases hkind with
    | array helem => exact .some ⟨rfl, helem⟩
    | typedList helem => exact .some ⟨rfl, helem⟩
    | untypedList => exact .some ⟨rfl, BEq.rfl⟩

theorem rel_indexSteps (path : String) (h : t.Same u) (indices : List Nat) :
    Option.Rel (List.Forall₂ Alike) (indexSteps ts path t indices).toOption
      (indexSteps ts path u indices).toOption := by
  induction indices generalizing t u with
  | nil => exact .some .nil
  | cons index rest ih =>
    simp only [indexSteps, Except.toOption_bind]
    refine rel_bind (rel_indexStep ts h index path) fun s s' hs => ?_
    refine rel_bind (ih hs.resultTy) fun later later' hlater => ?_
    exact .some (.cons hs hlater)

theorem rel_segmentSteps (path : String) (isStatic : Bool) (h : t.Same u) (segment : Segment) :
    Option.Rel (List.Forall₂ Alike) (segmentSteps ts rules path isStatic t segment).toOption
      (segmentSteps ts rules path isStatic u segment).toOption := by
  have hstep : Option.Rel Alike
      (if isStatic then firstStaticStep ts rules t segment path
        else memberStep ts rules t segment false path).toOption
      (if isStatic then firstStaticStep ts rules u segment path
        else memberStep ts rules u segment false path).toOption := by
    cases isStatic with
    | true =>
      rw [if_pos rfl, if_pos rfl, toOption_firstStaticStep, toOption_firstStaticStep]
      exact rel_memberStep ts rules h segment true path
    | false => exact rel_memberStep ts rules h segment false path
  rw [segmentSteps_eq_bind, segmentSteps_eq_bind, Except.toOption_bind, Except.toOption_bind]
  refine rel_bind hstep fun s s' hs => ?_
  rw [Except.toOption_bind, Except.toOption_bind]
  refine rel_bind (rel_indexSteps ts path hs.resultTy segment.indices) fun later later' hlater => ?_
  exact .some (.cons hs hlater)

theorem endTy_congr {steps steps' : List PathStep} (h : t.Same u)
    (hsteps : List.Forall₂ Alike steps steps') : (endTy t steps).Same (endTy u steps') := by
  induction hsteps generalizing t u with
  | nil => exact h
  | cons hs _ ih =>
    rw [endTy_cons, endTy_cons]
    exact ih hs.resultTy

theorem rel_resolve (path : String) (isStatic : Bool) (h : t.Same u) (raws : List String) :
    Option.Rel (List.Forall₂ Alike) (resolve ts rules path isStatic t raws).toOption
      (resolve ts rules path isStatic u raws).toOption := by
  induction raws generalizing t u isStatic with
  | nil => exact .some .nil
  | cons raw rest ih =>
    simp only [resolve, Except.toOption_bind]
    cases Segment.parse path raw with
    | error e => exact .none
    | ok segment =>
      change Option.Rel _ ((segmentSteps ts rules path isStatic t segment).toOption.bind _)
        ((segmentSteps ts rules path isStatic u segment).toOption.bind _)
      refine rel_bind (rel_segmentSteps ts rules path isStatic h segment) ?_
      intro steps steps' hsteps
      refine rel_bind (ih false (endTy_congr h hsteps)) fun later later' hlater => ?_
      exact .some (List.rel_append hsteps hlater)

/-- Whether two paths read alike and end at equal types. -/
structure Alike (p p' : CompiledPath) : Prop where
  root : p.root.Same p'.root
  isStatic : p.isStatic = p'.isStatic
  steps : List.Forall₂ PathStep.Alike p.steps p'.steps

variable {p p' : CompiledPath}

theorem Alike.resultTy (h : p.Alike p') : p.resultTy.Same p'.resultTy := endTy_congr h.root h.steps

theorem Alike.get (h : p.Alike p') : p.get = p'.get := by
  have hread (v : Value) : readAll p.steps v = readAll p'.steps v := by
    have hsteps := h.steps
    unfold readAll
    generalize p.steps = steps at hsteps ⊢
    generalize p'.steps = steps' at hsteps ⊢
    induction hsteps generalizing v with
    | nil => rfl
    | cons hs _ ih =>
      rw [List.foldlM_cons, List.foldlM_cons, hs.read]
      exact congrArg _ (funext ih)
  funext root
  rw [CompiledPath.get, CompiledPath.get, start, start, h.isStatic, hread]

/-- One text compiles against equal types alike. -/
theorem rel_compile (h : t.Same u) (text : String) (isStatic : Bool) :
    Option.Rel Alike (compile ts rules t text isStatic).toOption
      (compile ts rules u text isStatic).toOption := by
  simp only [compile]
  split
  · exact .none
  next =>
    cases Segment.split text with
    | error e => exact .none
    | ok raws =>
      change Option.Rel _ ((resolve ts rules text isStatic t raws >>= _).toOption)
        ((resolve ts rules text isStatic u raws >>= _).toOption)
      rw [Except.toOption_bind, Except.toOption_bind]
      refine rel_bind (rel_resolve ts rules text isStatic h raws) fun steps steps' hsteps => ?_
      exact .some ⟨h, rfl, hsteps⟩

end CompiledPath

end Introspect

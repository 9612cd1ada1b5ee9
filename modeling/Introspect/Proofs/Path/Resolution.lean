import Introspect.Proofs.Except
import Introspect.Proofs.Path.Assignment

/-!
The shape of compiled paths. Only the first step of a static path is static, and a field is found in
the scope that its step says. So a path that goes to fields and elements alone is one of those whose
writes are described, whatever the types and the text.
-/

namespace Introspect

/-- Whether the step goes to a field or to an element, wherever the field is kept. -/
def PathStep.isDirect : PathStep → Bool
  | .member (.field _) _ => true
  | .member .. => false
  | _ => true

/-- Whether a type has the step: the field among its members, or the indexing. -/
def PathStep.FoundIn (ts : TypeSystem) (owner : Ty) : PathStep → Prop
  | .member (.field f) isStatic => ∃ name, .field f ∈ ts.findMembers owner name (.of isStatic)
  | .member .. => True
  | .arrayElement _ elem => ts.indexKind? owner = some (.array elem)
  | .typedElement _ elem => ts.indexKind? owner = some (.typedList elem)
  | .untypedElement _ => ts.indexKind? owner = some .untypedList

namespace CompiledPath

/-- Steps of which at most the first is static, with each field in the scope of its step. -/
structure Resolved (isStatic : Bool) (steps : List PathStep) : Prop where
  first : ∀ s ∈ steps.head?, s.isStatic = isStatic
  later : ∀ s ∈ steps.tail, s.isStatic = false
  scope : ∀ s ∈ steps, s.isDirect = true → s.isStored = true

section

variable {ts : TypeSystem} {rules : Rules}

/-- A field that is found is one that a class of the base chain declares, its type instantiated. -/
theorem exists_declared_of_mem_findMembers {t : Ty} {name : String} {isStatic : Bool}
    {f : FieldInfo} (hf : .field f ∈ ts.findMembers t name (.of isStatic)) :
    ∃ n args d declared, .named n args ∈ ts.baseChain t ∧ ts.find? n = some d ∧
      .field declared ∈ d.members ∧ declared.isStatic = isStatic ∧
      f = { declared with ty := declared.ty.instantiate d.name args } := by
  cases t with
  | named n args =>
    obtain ⟨owner, howner, hf⟩ := List.mem_flatMap.mp hf
    unfold TypeSystem.declaredMembers at hf
    split at hf
    next n args =>
      split at hf
      next d hd =>
        obtain ⟨m, hm, hmf⟩ := List.mem_map.mp hf
        obtain ⟨hm, hs⟩ := List.mem_filter.mp hm
        cases m with
        | field declared =>
          cases hmf
          exact ⟨n, args, d, declared, howner, hd, (List.mem_filter.mp hm).1, eq_of_beq hs, rfl⟩
        | _ => cases hmf
      next => cases hf
    next => cases hf
  | array elem =>
    simp only [TypeSystem.findMembers] at hf
    split at hf
    · rw [List.mem_singleton] at hf
      cases hf
    · cases hf
  | param p => cases hf

theorem isStatic_of_mem_findMembers {t : Ty} {name : String} {isStatic : Bool} {f : FieldInfo}
    (hf : .field f ∈ ts.findMembers t name (.of isStatic)) : f.isStatic = isStatic := by
  obtain ⟨n, args, d, declared, -, -, -, hs, rfl⟩ := exists_declared_of_mem_findMembers hf
  exact hs

theorem callStep_eq_ok {owner : Ty} {name : String} {members : List Member} {args : List Value}
    {isStatic : Bool} {s : PathStep} (h : callStep ts owner name members args isStatic = .ok s) :
    ∃ m, s = .member (.method m args) isStatic := by
  unfold callStep at h
  cases hm : Overload.select ts owner name members (args.map (Value.typeOf .empty)) with
  | error e =>
    rw [hm] at h
    cases h
  | ok m =>
    rw [hm] at h
    cases h
    exact ⟨m, rfl⟩

theorem memberStep_eq_ok {owner : Ty} {segment : Segment} {isStatic : Bool} {path : String}
    {s : PathStep} (h : memberStep ts rules owner segment isStatic path = .ok s) :
    s.isStatic = isStatic ∧ (s.isDirect = true → s.isStored = true) := by
  have hcall {name : String} {members : List Member} {args : List Value}
      (h : callStep ts owner name members args isStatic = .ok s) :
      s.isStatic = isStatic ∧ (s.isDirect = true → s.isStored = true) := by
    obtain ⟨m, rfl⟩ := callStep_eq_ok h
    exact ⟨rfl, fun hd => (nomatch hd)⟩
  simp only [memberStep] at h
  split at h
  next args _ => exact hcall h
  next =>
    split at h
    next f hf =>
      cases h
      obtain ⟨m, hm, hmf⟩ := List.exists_of_findSome?_eq_some hf
      cases m with
      | field f =>
        cases hmf
        exact ⟨rfl, fun _ => beq_iff_eq.mpr (isStatic_of_mem_findMembers hm)⟩
      | _ => cases hmf
    next =>
      split at h
      next p _ =>
        cases h
        exact ⟨rfl, fun hd => (nomatch hd)⟩
      next =>
        split at h
        · cases h
        · split at h
          · exact hcall h
          · cases h

theorem firstStaticStep_eq_ok {owner : Ty} {segment : Segment} {path : String} {s : PathStep}
    (h : firstStaticStep ts rules owner segment path = .ok s) :
    memberStep ts rules owner segment true path = .ok s := by
  unfold firstStaticStep at h
  split at h
  · cases h
  · exact h

theorem indexSteps_eq_ok {path : String} {owner : Ty} {indices : List Nat} {steps : List PathStep}
    (h : indexSteps ts path owner indices = .ok steps) :
    ∀ s ∈ steps, s.isStatic = false ∧ s.isStored = true := by
  induction indices generalizing owner steps with
  | nil =>
    cases h
    intro s hs
    cases hs
  | cons index rest ih =>
    obtain ⟨step, hstep, h⟩ := Except.bind_eq_ok.mp h
    obtain ⟨later, hlater, h⟩ := Except.bind_eq_ok.mp h
    cases h
    intro s hs
    rcases List.mem_cons.mp hs with rfl | hs
    · unfold indexStep at hstep
      split at hstep <;> cases hstep <;> exact ⟨rfl, rfl⟩
    · exact ih hlater s hs

/-- The member of a segment comes first, then its indices. -/
theorem segmentSteps_eq_bind (path : String) (isStatic : Bool) (owner : Ty) (segment : Segment) :
    segmentSteps ts rules path isStatic owner segment =
      (if isStatic then firstStaticStep ts rules owner segment path
        else memberStep ts rules owner segment false path) >>= fun step => do
          return step :: (← indexSteps ts path step.resultTy segment.indices) := by
  cases isStatic <;> rfl

/-- The steps of a segment are its member, found in the scope that it is in, and its indices. -/
theorem segmentSteps_eq_ok_iff {path : String} {isStatic : Bool} {owner : Ty} {segment : Segment}
    {steps : List PathStep} :
    segmentSteps ts rules path isStatic owner segment = .ok steps ↔
      ∃ step later, (if isStatic then firstStaticStep ts rules owner segment path
          else memberStep ts rules owner segment false path) = .ok step ∧
        indexSteps ts path step.resultTy segment.indices = .ok later ∧ steps = step :: later := by
  rw [segmentSteps_eq_bind, Except.bind_eq_ok]
  constructor
  · rintro ⟨step, hstep, h⟩
    obtain ⟨later, hlater, h⟩ := Except.bind_eq_ok.mp h
    cases h
    exact ⟨step, later, hstep, hlater, rfl⟩
  · rintro ⟨step, later, hstep, hlater, rfl⟩
    exact ⟨step, hstep, Except.bind_eq_ok.mpr ⟨later, hlater, rfl⟩⟩

theorem segmentSteps_eq_ok {path : String} {isStatic : Bool} {owner : Ty} {segment : Segment}
    {steps : List PathStep}
    (h : segmentSteps ts rules path isStatic owner segment = .ok steps) :
    steps ≠ [] ∧ Resolved isStatic steps := by
  obtain ⟨step, later, hstep, hlater, rfl⟩ := segmentSteps_eq_ok_iff.mp h
  have hmember : memberStep ts rules owner segment isStatic path = .ok step := by
    cases isStatic with
    | true => exact firstStaticStep_eq_ok hstep
    | false => exact hstep
  obtain ⟨hstatic, hscope⟩ := memberStep_eq_ok hmember
  have hindices := indexSteps_eq_ok hlater
  refine ⟨List.cons_ne_nil _ _, ?_, fun s hs => (hindices s hs).1, fun s hs hd => ?_⟩
  · intro s hs
    cases hs
    exact hstatic
  · rcases List.mem_cons.mp hs with rfl | hs
    · exact hscope hd
    · exact (hindices s hs).2

theorem Resolved.append {isStatic : Bool} {steps later : List PathStep} (hne : steps ≠ [])
    (hs : Resolved isStatic steps) (hl : Resolved false later) :
    Resolved isStatic (steps ++ later) := by
  obtain ⟨s, steps, rfl⟩ := List.exists_cons_of_ne_nil hne
  refine ⟨hs.first, fun t ht => ?_, fun t ht => ?_⟩
  · rcases List.mem_append.mp ht with ht | ht
    · exact hs.later t ht
    · cases later with
      | nil => cases ht
      | cons u later =>
        rcases List.mem_cons.mp ht with rfl | ht
        · exact hl.first t rfl
        · exact hl.later t ht
  · rcases List.mem_append.mp ht with ht | ht
    · exact hs.scope t ht
    · exact hl.scope t ht

theorem resolved_of_resolve {path : String} {isStatic : Bool} {owner : Ty} {raws : List String}
    {steps : List PathStep} (h : resolve ts rules path isStatic owner raws = .ok steps) :
    Resolved isStatic steps := by
  induction raws generalizing isStatic owner steps with
  | nil =>
    cases h
    exact ⟨fun s hs => (nomatch hs), fun s hs => (nomatch hs), fun s hs => (nomatch hs)⟩
  | cons raw rest ih =>
    obtain ⟨segment, -, h⟩ := Except.bind_eq_ok.mp h
    obtain ⟨steps, hsteps, h⟩ := Except.bind_eq_ok.mp h
    obtain ⟨later, hlater, h⟩ := Except.bind_eq_ok.mp h
    cases h
    obtain ⟨hne, hresolved⟩ := segmentSteps_eq_ok hsteps
    exact hresolved.append hne (ih hlater)

/-- A compiled path that goes to fields and elements alone is a path of stored steps. -/
theorem isStored_of_compile {root : Ty} {text : String} {isStatic : Bool} {p : CompiledPath}
    (h : compile ts rules root text isStatic = .ok p)
    (hdirect : ∀ s ∈ p.steps, s.isDirect = true) : p.IsStored := by
  simp only [compile] at h
  split at h
  · cases h
  obtain ⟨raws, -, h⟩ := Except.bind_eq_ok.mp h
  obtain ⟨steps, hsteps, h⟩ := Except.bind_eq_ok.mp h
  cases h
  obtain ⟨hfirst, hlater, hscope⟩ := resolved_of_resolve hsteps
  exact ⟨fun s hs => hscope s hs (hdirect s hs), hfirst, hlater⟩

/-! ### The types along a path -/

theorem endTy_cons (root : Ty) (s : PathStep) (rest : List PathStep) :
    endTy root (s :: rest) = endTy s.resultTy rest := by
  unfold endTy
  rw [List.getLast?_cons]
  cases rest.getLast? with
  | none => rfl
  | some last => rfl

/-- Whether each step is one of the type where the step before it ends. -/
def TypedFrom (ts : TypeSystem) : Ty → List PathStep → Prop
  | _, [] => True
  | owner, s :: rest => s.FoundIn ts owner ∧ TypedFrom ts s.resultTy rest

theorem typedFrom_append {owner : Ty} {front back : List PathStep} :
    TypedFrom ts owner (front ++ back) ↔
      TypedFrom ts owner front ∧ TypedFrom ts (endTy owner front) back := by
  induction front generalizing owner with
  | nil => exact (true_and _).symm.to_iff
  | cons s front ih =>
    rw [endTy_cons]
    change _ ∧ TypedFrom ts s.resultTy (front ++ back) ↔ (_ ∧ TypedFrom ts s.resultTy front) ∧ _
    rw [ih, and_assoc]

theorem foundIn_of_memberStep {owner : Ty} {segment : Segment} {isStatic : Bool} {path : String}
    {s : PathStep} (h : memberStep ts rules owner segment isStatic path = .ok s) :
    s.FoundIn ts owner := by
  have hcall {name : String} {members : List Member} {args : List Value}
      (h : callStep ts owner name members args isStatic = .ok s) : s.FoundIn ts owner := by
    obtain ⟨m, rfl⟩ := callStep_eq_ok h
    trivial
  simp only [memberStep] at h
  split at h
  next args _ => exact hcall h
  next =>
    split at h
    next f hf =>
      cases h
      obtain ⟨m, hm, hmf⟩ := List.exists_of_findSome?_eq_some hf
      cases m with
      | field f =>
        cases hmf
        exact ⟨segment.name, hm⟩
      | _ => cases hmf
    next =>
      split at h
      next p _ =>
        cases h
        trivial
      next =>
        split at h
        · cases h
        · split at h
          · exact hcall h
          · cases h

theorem typedFrom_of_indexSteps {path : String} {owner : Ty} {indices : List Nat}
    {steps : List PathStep} (h : indexSteps ts path owner indices = .ok steps) :
    TypedFrom ts owner steps := by
  induction indices generalizing owner steps with
  | nil =>
    cases h
    trivial
  | cons index rest ih =>
    obtain ⟨step, hstep, h⟩ := Except.bind_eq_ok.mp h
    obtain ⟨later, hlater, h⟩ := Except.bind_eq_ok.mp h
    cases h
    refine ⟨?_, ih hlater⟩
    unfold indexStep at hstep
    split at hstep <;> cases hstep <;> assumption

theorem typedFrom_of_segmentSteps {path : String} {isStatic : Bool} {owner : Ty}
    {segment : Segment} {steps : List PathStep}
    (h : segmentSteps ts rules path isStatic owner segment = .ok steps) :
    TypedFrom ts owner steps := by
  obtain ⟨step, later, hstep, hlater, rfl⟩ := segmentSteps_eq_ok_iff.mp h
  have hmember : memberStep ts rules owner segment isStatic path = .ok step := by
    cases isStatic with
    | true => exact firstStaticStep_eq_ok hstep
    | false => exact hstep
  exact ⟨foundIn_of_memberStep hmember, typedFrom_of_indexSteps hlater⟩

theorem typedFrom_of_resolve {path : String} {isStatic : Bool} {owner : Ty} {raws : List String}
    {steps : List PathStep} (h : resolve ts rules path isStatic owner raws = .ok steps) :
    TypedFrom ts owner steps := by
  induction raws generalizing isStatic owner steps with
  | nil =>
    cases h
    trivial
  | cons raw rest ih =>
    obtain ⟨segment, -, h⟩ := Except.bind_eq_ok.mp h
    obtain ⟨steps, hsteps, h⟩ := Except.bind_eq_ok.mp h
    obtain ⟨later, hlater, h⟩ := Except.bind_eq_ok.mp h
    cases h
    exact typedFrom_append.mpr ⟨typedFrom_of_segmentSteps hsteps, ih hlater⟩

theorem typedFrom_of_compile {root : Ty} {text : String} {isStatic : Bool} {p : CompiledPath}
    (h : compile ts rules root text isStatic = .ok p) : TypedFrom ts root p.steps := by
  simp only [compile] at h
  split at h
  · cases h
  obtain ⟨raws, -, h⟩ := Except.bind_eq_ok.mp h
  obtain ⟨steps, hsteps, h⟩ := Except.bind_eq_ok.mp h
  cases h
  exact typedFrom_of_resolve hsteps

end

end CompiledPath

end Introspect

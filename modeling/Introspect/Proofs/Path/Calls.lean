import Introspect.Expression
import Introspect.Proofs.Path.Naming
import Introspect.Proofs.Path.RoundTrip

/-!
Calls at the end of a path. An expression runs them through an invoker, which compiles what stands
before the call and selects the overload itself, while a compiled path has the call as its last
step. Both find the same method and give the same outcome.
-/

namespace Introspect

/-! ### Compilers in use -/

namespace PathCompiler

/-- The compilers that there are in the course of a use for the same types. -/
inductive Used (ts : TypeSystem) (rules : CompiledPath.Rules) : PathCompiler → Prop where
  | new : Used ts rules (new rules)
  | clearCache {c : PathCompiler} (hc : Used ts rules c) : Used ts rules c.clearCache
  | compile {c : PathCompiler} (hc : Used ts rules c) (root : Ty) (text : String)
      (isStatic : Bool) : Used ts rules (compile ts root text isStatic c).2

/-- Whether every kept path is one that its text compiles to against a type equal to its key's. -/
def Coherent (ts : TypeSystem) (c : PathCompiler) : Prop :=
  ∀ k s, c.cache.find? k = some s → ∃ root, root.Same k.root ∧
    CompiledPath.compile ts c.rules root k.text k.isStatic = .ok s.value

variable {ts : TypeSystem} {rules : CompiledPath.Rules} {c c' : PathCompiler} {root : Ty}
  {text : String} {isStatic : Bool}

/-- A compiled path is kept, or it is what its text compiles to now. -/
theorem compile_cases (ts : TypeSystem) (root : Ty) (text : String) (isStatic : Bool)
    (c : PathCompiler) :
    (∃ s, c.cache.find? ⟨root, text, isStatic⟩ = some s ∧
      compile ts root text isStatic c = (.ok s, { c with nextAddress := c.nextAddress + 1 })) ∨
    (∃ p, c.cache.find? ⟨root, text, isStatic⟩ = none ∧
      CompiledPath.compile ts c.rules root text isStatic = .ok p ∧
      compile ts root text isStatic c = (.ok ⟨c.nextAddress, p⟩,
        { c with cache := c.cache.insert ⟨root, text, isStatic⟩ ⟨c.nextAddress, p⟩
                 nextAddress := c.nextAddress + 1 })) ∨
    ∃ e, c.cache.find? ⟨root, text, isStatic⟩ = none ∧
      CompiledPath.compile ts c.rules root text isStatic = .error e ∧
      compile ts root text isStatic c =
        (.error e, { c with nextAddress := c.nextAddress + 1 }) := by
  cases hfound : c.cache.find? ⟨root, text, isStatic⟩ with
  | some s => exact Or.inl ⟨s, rfl, by simp only [compile, KeyedMap.getOrCompute, hfound]⟩
  | none =>
    right
    cases hcompile : CompiledPath.compile ts c.rules root text isStatic with
    | error e =>
      right
      refine ⟨e, rfl, rfl, ?_⟩
      simp only [compile, KeyedMap.getOrCompute, hfound, hcompile, Except.map]
    | ok p =>
      left
      refine ⟨p, rfl, rfl, ?_⟩
      simp only [compile, KeyedMap.getOrCompute, hfound, hcompile, Except.map]

/-- Compiling keeps a compiler coherent, whether it succeeds or not. -/
theorem Coherent.compile (hc : c.Coherent ts) (root : Ty) (text : String) (isStatic : Bool) :
    (PathCompiler.compile ts root text isStatic c).2.Coherent ts ∧
      (PathCompiler.compile ts root text isStatic c).2.rules = c.rules := by
  rcases compile_cases ts root text isStatic c with
    ⟨s, -, heq⟩ | ⟨p, -, hcompile, heq⟩ | ⟨e, -, -, heq⟩
  · rw [heq]
    exact ⟨hc, rfl⟩
  · rw [heq]
    refine ⟨fun k t hk => ?_, rfl⟩
    rw [KeyedMap.find?_insert] at hk
    split at hk
    next hkey =>
      cases hk
      obtain ⟨hroot, htext, hstatic⟩ := PathKey.beq_iff.mp hkey
      exact ⟨root, hroot, htext ▸ hstatic ▸ hcompile⟩
    next => exact hc k t hk
  · rw [heq]
    exact ⟨hc, rfl⟩

theorem Used.coherent (hc : c.Used ts rules) : c.Coherent ts ∧ c.rules = rules := by
  induction hc with
  | new => exact ⟨fun _ _ h => (nomatch h), rfl⟩
  | clearCache _ ih => exact ⟨fun _ _ h => (nomatch h), ih.2⟩
  | compile _ root text isStatic ih =>
    obtain ⟨hcoherent, hrules⟩ := ih.1.compile root text isStatic
    exact ⟨hcoherent, hrules.trans ih.2⟩

/-- What a coherent compiler gives is compiled against an equal root. -/
theorem Coherent.compile_eq_ok (hc : c.Coherent ts) {s : Shared CompiledPath}
    (h : PathCompiler.compile ts root text isStatic c = (.ok s, c')) :
    ∃ root', root'.Same root ∧
      CompiledPath.compile ts c.rules root' text isStatic = .ok s.value := by
  rcases compile_cases ts root text isStatic c with
    ⟨s', hfound, heq⟩ | ⟨p, hnone, hcompile, heq⟩ | ⟨e, -, -, heq⟩
  · rw [heq] at h
    cases h
    exact hc _ _ hfound
  · rw [heq] at h
    cases h
    exact ⟨root, BEq.rfl, hcompile⟩
  · rw [heq] at h
    cases h

theorem Coherent.alike (hc : c.Coherent ts) {s : Shared CompiledPath}
    (h : PathCompiler.compile ts root text isStatic c = (.ok s, c')) {root' : Ty}
    (hroot : root'.Same root) {p : CompiledPath}
    (hp : CompiledPath.compile ts c.rules root' text isStatic = .ok p) : s.value.Alike p := by
  obtain ⟨root₁, hroot₁, hs⟩ := hc.compile_eq_ok h
  have hsame : root₁.Same root' := BEq.trans hroot₁ (BEq.symm hroot)
  exact Except.rel_of_ok (CompiledPath.rel_compile ts c.rules hsame text isStatic) hs hp

/-- A coherent compiler gives a path exactly if the text compiles. -/
theorem Coherent.exists_compile (hc : c.Coherent ts) :
    (∃ s c', PathCompiler.compile ts root text isStatic c = (.ok s, c')) ↔
      ∃ p, CompiledPath.compile ts c.rules root text isStatic = .ok p := by
  rcases compile_cases ts root text isStatic c with
    ⟨s, hfound, heq⟩ | ⟨p, -, hcompile, heq⟩ | ⟨e, -, hcompile, heq⟩
  · obtain ⟨root', hroot, hcompile⟩ := hc _ _ hfound
    have hcongr := Except.exists_ok_congr
      (CompiledPath.rel_compile ts c.rules hroot text isStatic)
    rw [heq]
    exact ⟨fun _ => hcongr.mp ⟨_, hcompile⟩, fun _ => ⟨s, _, rfl⟩⟩
  · rw [heq, hcompile]
    exact ⟨fun _ => ⟨p, rfl⟩, fun _ => ⟨_, _, rfl⟩⟩
  · rw [heq, hcompile]
    exact ⟨fun ⟨_, _, h⟩ => (nomatch h), fun ⟨_, h⟩ => (nomatch h)⟩

end PathCompiler

namespace PathM

variable {P : PathCompiler → Prop} {α β : Type}

/-- Whether a computation keeps what holds of the compiler, also when it fails. -/
def Keeps (P : PathCompiler → Prop) (x : PathM α) : Prop := ∀ c, P c → P (x c).2

theorem keeps_lift (r : Except Error α) : Keeps P (PathM.lift r) := fun _ hc => hc

theorem Keeps.bind {x : PathM α} {f : α → PathM β} (hx : Keeps P x) (hf : ∀ a, Keeps P (f a)) :
    Keeps P (x >>= f) := by
  intro c hc
  have hkept := hx c hc
  rw [Except.bind_apply]
  rcases hrun : x c with ⟨e | a, c'⟩
  · rw [hrun] at hkept
    exact hkept
  · rw [hrun] at hkept
    exact hf a c' hkept

end PathM

theorem Invoker.keeps_build {ts : TypeSystem} {rules : CompiledPath.Rules} (root : Ty)
    (text : String) (argTypes : List Ty) (isStatic : Bool) :
    PathM.Keeps (PathCompiler.Used ts rules) (build ts root text argTypes isStatic) := by
  have hselect (target? : Option CompiledPath) (owner : Ty) (name : String) (ofType : Bool) :
      PathM.Keeps (PathCompiler.Used ts rules) (do
        let m ← PathM.lift (Overload.select ts owner name (ts.findMembers owner name (.of ofType))
          argTypes)
        return ⟨target?, m, ofType, isStatic⟩ : PathM Invoker) :=
    (PathM.keeps_lift _).bind fun m => PathM.keeps_lift (.ok _)
  unfold build
  refine (PathM.keeps_lift _).bind fun raws => (PathM.keeps_lift _).bind fun segment => ?_
  dsimp only
  split
  · exact PathM.keeps_lift (.error _)
  · split
    · exact hselect none root segment.name isStatic
    · refine PathM.Keeps.bind (fun c hc => hc.compile root _ isStatic) fun path => ?_
      exact hselect (some path.value) path.value.resultTy segment.name false

theorem Evaluator.keeps_build {ts : TypeSystem} {rules : CompiledPath.Rules} (root : Ty)
    (path : String) (isStatic : Bool) :
    PathM.Keeps (PathCompiler.Used ts rules) (build ts root path isStatic) := by
  have hgetter : PathM.Keeps (PathCompiler.Used ts rules) (do
      return .getter (← PathCompiler.compile ts root path isStatic).value : PathM Evaluator) :=
    PathM.Keeps.bind (fun c hc => hc.compile root path isStatic) fun p => PathM.keeps_lift (.ok _)
  unfold build
  refine (PathM.keeps_lift _).bind fun raws => (PathM.keeps_lift _).bind fun last => ?_
  dsimp only
  split
  · split
    · exact (Invoker.keeps_build root _ _ isStatic).bind fun i => PathM.keeps_lift (.ok _)
    · exact hgetter
  · exact hgetter

/-! ### The call as a step -/

namespace CompiledPath

variable {ts : TypeSystem} {rules : Rules} {root : Ty} {path raw : String} {isStatic : Bool}
  {p : CompiledPath} {segment : Segment} {args : List Value}

/-- The method that a call goes to. -/
def selected (ts : TypeSystem) (owner : Ty) (name : String) (args : List Value) (isStatic : Bool) :
    Except Error MethodInfo :=
  Overload.select ts owner name (ts.findMembers owner name (.of isStatic))
    (args.map (Value.typeOf .empty))

theorem rel_selected {t u : Ty} (h : t.Same u) (name : String) (args : List Value)
    (isStatic : Bool) :
    Option.Rel (fun m m' => (Member.method m).Same (.method m'))
      (selected ts t name args isStatic).toOption (selected ts u name args isStatic).toOption :=
  Overload.select_congr ts (ts.findMembers_congr h name isStatic) t u name _

/-- A method that is selected takes as many arguments as there are. -/
theorem length_of_selected {owner : Ty} {name : String} {m : MethodInfo}
    (h : selected ts owner name args isStatic = .ok m) : args.length = m.arity := by
  unfold selected Overload.select at h
  dsimp only at h
  split at h
  · cases h
  · split at h
    next m' hm =>
      cases h
      have haccepts := List.find?_some hm
      rw [Overload.accepts, Bool.and_eq_true, beq_iff_eq, List.length_map] at haccepts
      exact haccepts.1.symm
    next => cases h

theorem firstStaticStep_eq_ok_iff {owner : Ty} {s : PathStep} :
    firstStaticStep ts rules owner segment path = .ok s ↔
      memberStep ts rules owner segment true path = .ok s := by
  rw [← Except.toOption_eq_some, toOption_firstStaticStep, Except.toOption_eq_some]

theorem memberStep_call (hargs : segment.args? = some args) (owner : Ty) {s : PathStep} :
    memberStep ts rules owner segment isStatic path = .ok s ↔
      ∃ m, selected ts owner segment.name args isStatic = .ok m ∧
        s = .member (.method m args) isStatic := by
  simp only [memberStep, hargs, callStep]
  rw [Except.map_eq_ok]
  exact exists_congr fun m => and_congr_right' eq_comm

/-- A text that is one call compiles exactly if an overload takes the arguments. -/
theorem compile_call_eq_ok (hraw : Segment.split raw = .ok [raw])
    (hsegment : Segment.parse path raw = .ok segment) (hargs : segment.args? = some args)
    (hindices : segment.indices = []) :
    compile ts rules root raw isStatic = .ok p ↔
      ∃ m, selected ts root segment.name args isStatic = .ok m ∧
        p = ⟨root, raw, isStatic, [.member (.method m args) isStatic]⟩ := by
  have hparse : Segment.parse raw raw = .ok segment := by
    rw [← Except.toOption_eq_some, Segment.toOption_parse raw path, hsegment]
    rfl
  have hstep {s : PathStep} : (if isStatic then firstStaticStep ts rules root segment raw
      else memberStep ts rules root segment false raw) = .ok s ↔
        ∃ m, selected ts root segment.name args isStatic = .ok m ∧
          s = .member (.method m args) isStatic := by
    cases isStatic with
    | true => rw [if_pos rfl, firstStaticStep_eq_ok_iff, memberStep_call hargs]
    | false => rw [if_neg Bool.false_ne_true, memberStep_call hargs]
  constructor
  · intro h
    obtain ⟨raws, steps, hraws, hsteps, rfl⟩ := compile_eq_ok.mp h
    obtain rfl : [raw] = raws := Except.ok.inj (hraw.symm.trans hraws)
    obtain ⟨segment', first, later, hsegment', hfirst, hlater, rfl⟩ := resolve_cons_eq_ok.mp hsteps
    obtain rfl : segment = segment' := Except.ok.inj (hparse.symm.trans hsegment')
    obtain ⟨s, rest, hs, hrest, rfl⟩ := segmentSteps_eq_ok_iff.mp hfirst
    obtain ⟨m, hm, rfl⟩ := hstep.mp hs
    rw [hindices] at hrest
    cases hrest
    cases hlater
    exact ⟨m, hm, rfl⟩
  · rintro ⟨m, hm, rfl⟩
    refine compile_eq_ok.mpr ⟨[raw], _, hraw, resolve_cons_eq_ok.mpr ?_, rfl⟩
    refine ⟨segment, _, [], hparse, segmentSteps_eq_ok_iff.mpr ?_, rfl, (List.append_nil _).symm⟩
    refine ⟨_, [], hstep.mpr ⟨m, hm, rfl⟩, ?_, rfl⟩
    rw [hindices]
    rfl

/-- A path that ends with a call: its receiver, if anything stands before the call, and the method
that is found in the type of the receiver. -/
theorem compile_receiver_call_eq_ok {front : List String} {receiver : String}
    (hreceiver : Segment.split receiver = .ok front) (hraw : Segment.split raw = .ok [raw])
    (hsegment : Segment.parse path raw = .ok segment) (hargs : segment.args? = some args)
    (hindices : segment.indices = []) :
    compile ts rules root (receiver ++ "." ++ raw) isStatic = .ok p ↔
      ∃ r m, compile ts rules root receiver isStatic = .ok r ∧
        selected ts r.resultTy segment.name args false = .ok m ∧
        p = ⟨root, receiver ++ "." ++ raw, isStatic,
          r.steps ++ [.member (.method m args) false]⟩ := by
  rw [compile_append_dot_eq_ok hreceiver hraw]
  constructor
  · rintro ⟨r, back, hr, hback, rfl⟩
    obtain ⟨m, hm, rfl⟩ := (compile_call_eq_ok hraw hsegment hargs hindices).mp hback
    exact ⟨r, m, hr, hm, rfl⟩
  · rintro ⟨r, m, hr, hm, rfl⟩
    refine ⟨r, _, hr, (compile_call_eq_ok hraw hsegment hargs hindices).mpr ⟨m, hm, rfl⟩, rfl⟩

end CompiledPath

/-! ### The call through an invoker -/

theorem PathM.lift_eq_ok {α : Type} {r : Except Error α} {a : α} {c c' : PathCompiler} :
    PathM.lift r c = (.ok a, c') ↔ r = .ok a ∧ c' = c := by
  change (r, c) = (.ok a, c') ↔ _
  rw [Prod.mk.injEq, eq_comm (a := c)]

namespace Invoker

open CompiledPath (selected)

variable {ts : TypeSystem} {root : Ty} {isStatic : Bool} {c c' : PathCompiler} {i : Invoker}
  {args : List Value}

/-- The method is one of the root if the text is a name alone, and otherwise one of the type of
what stands before the last segment. -/
theorem build_eq_ok {text last : String} {argTypes : List Ty} {front : List String}
    {segment : Segment} (hraws : Segment.split text = .ok (front ++ [last]))
    (hsegment : Segment.parse text last = .ok segment) (hargs : segment.args? = none)
    (hindices : segment.indices = []) :
    build ts root text argTypes isStatic c = (.ok i, c') ↔
      if front = [] then
        c' = c ∧ ∃ m, Overload.select ts root segment.name
          (ts.findMembers root segment.name (.of isStatic)) argTypes = .ok m ∧
          i = ⟨none, m, isStatic, isStatic⟩
      else
        ∃ r m, PathCompiler.compile ts root (receiverText text last) isStatic c = (.ok r, c') ∧
          Overload.select ts r.value.resultTy segment.name
            (ts.findMembers r.value.resultTy segment.name (.of false)) argTypes = .ok m ∧
          i = ⟨some r.value, m, false, isStatic⟩ := by
  have hselect (target? : Option CompiledPath) (owner : Ty) (ofType : Bool) (c₁ : PathCompiler) :
      (do
        let m ← PathM.lift (Overload.select ts owner segment.name
          (ts.findMembers owner segment.name (.of ofType)) argTypes)
        return ⟨target?, m, ofType, isStatic⟩ : PathM Invoker) c₁ = (.ok i, c') ↔
      c' = c₁ ∧ ∃ m, Overload.select ts owner segment.name
        (ts.findMembers owner segment.name (.of ofType)) argTypes = .ok m ∧
        i = ⟨target?, m, ofType, isStatic⟩ := by
    rw [Except.bind_apply_eq_ok]
    constructor
    · rintro ⟨m, c₂, hm, h⟩
      obtain ⟨hselected, rfl⟩ := PathM.lift_eq_ok.mp hm
      cases h
      exact ⟨rfl, m, hselected, rfl⟩
    · rintro ⟨rfl, m, hm, rfl⟩
      exact ⟨m, c', PathM.lift_eq_ok.mpr ⟨hm, rfl⟩, rfl⟩
  have hbare : ¬(segment.args?.isSome || !segment.indices.isEmpty) = true := by
    simp [hargs, hindices]
  have hlast : (front ++ [last]).getLast?.getD "" = last := by
    rw [List.getLast?_concat, Option.getD_some]
  unfold build
  rw [Except.bind_apply, PathM.lift, hraws]
  dsimp only
  rw [hlast, Except.bind_apply, PathM.lift, hsegment]
  dsimp only
  rw [if_neg hbare]
  by_cases hfront : front = []
  · subst hfront
    rw [if_pos rfl, if_pos (by rfl)]
    exact hselect none root isStatic c
  · have hlength : ¬((front ++ [last]).length == 1) = true := by
      have hpos := List.length_pos_iff.mpr hfront
      rw [beq_iff_eq, List.length_append, List.length_singleton]
      omega
    rw [if_neg hfront, if_neg hlength, Except.bind_apply_eq_ok]
    constructor
    · rintro ⟨r, c₁, hr, h⟩
      obtain ⟨rfl, m, hm, rfl⟩ := (hselect (some r.value) r.value.resultTy false c₁).mp h
      exact ⟨r, m, hr, hm, rfl⟩
    · rintro ⟨r, m, hr, hm, rfl⟩
      exact ⟨r, c', hr, (hselect _ _ false c').mpr ⟨rfl, m, hm, rfl⟩⟩

/-- A bare name is a method of the root. -/
theorem build_name_eq_ok {s : Segment} (hs : s.WellNamed) :
    build ts root s.name (args.map (Value.typeOf .empty)) isStatic c = (.ok i, c') ↔
      c' = c ∧ ∃ m, selected ts root s.name args isStatic = .ok m ∧
        i = ⟨none, m, isStatic, isStatic⟩ := by
  have hsplit : Segment.split s.name = .ok ([] ++ [s.name]) := Segment.split_name hs
  rw [build_eq_ok hsplit (Segment.parse_name hs s.name) rfl rfl, if_pos rfl]
  rfl

/-- A name behind a receiver is a method of the type of that receiver. -/
theorem build_receiver_eq_ok {front : List String} {receiver : String}
    (hreceiver : Segment.split receiver = .ok front) {s : Segment} (hs : s.WellNamed) :
    build ts root (receiver ++ "." ++ s.name) (args.map (Value.typeOf .empty)) isStatic c =
        (.ok i, c') ↔
      ∃ r m, PathCompiler.compile ts root receiver isStatic c = (.ok r, c') ∧
        selected ts r.value.resultTy s.name args false = .ok m ∧
        i = ⟨some r.value, m, false, isStatic⟩ := by
  have hsplit := Segment.split_append_dot hreceiver (Segment.split_name hs)
  rw [build_eq_ok hsplit (Segment.parse_name hs _) rfl rfl, if_neg (Segment.split_ne_nil hreceiver),
    receiverText_append_dot]
  rfl

/-- The receiver that a call through an invoker gets. -/
def receiver (i : Invoker) (root : Value) : Action Value :=
  match i.target? with
  | some path => path.get root
  | none => pure (if i.isStaticRoot then .null else root)

/-- With the right number of arguments a call through an invoker reads the step that a compiled path
has for it. -/
theorem invoke_eq_read (harity : args.length = i.method.arity)
    (hstatic : i.isStatic = true → i.target? = none ∧ i.isStaticRoot = true) (root : Value) :
    i.invoke root args =
      i.receiver root >>= (PathStep.member (.method i.method args) i.isStatic).read := by
  have hmatches : ¬(args.length != i.method.arity) = true := by
    simp [harity]
  have hinvoke : i.invoke root args = i.receiver root >>= fun v =>
      if !i.isStatic && v.isNull then throw (.nullReference i.method.name)
      else i.method.body v args := by
    have hthen (x : Action Value) :
        (x >>= fun v => do
          if !i.isStatic && v.isNull then throw (.nullReference i.method.name)
          i.method.body v args) =
        x >>= fun v => if !i.isStatic && v.isNull then throw (.nullReference i.method.name)
          else i.method.body v args := by
      apply bind_congr
      intro v
      split <;> rfl
    rw [invoke, if_neg hmatches, receiver]
    cases i.target? with
    | none => exact hthen _
    | some path => exact hthen _
  rw [hinvoke]
  cases hs : i.isStatic with
  | true =>
    -- Nothing stands before the name of a static method, and its receiver is null.
    obtain ⟨htarget, hroot⟩ := hstatic hs
    have hreceiver : i.receiver root = pure .null := by
      rw [receiver, htarget, hroot, if_pos rfl]
    rw [hreceiver, pure_bind, pure_bind]
    rfl
  | false =>
    apply bind_congr
    intro v
    simp only [PathStep.read, PathStep.receiver, Bool.not_false, Bool.true_and, Bool.false_eq_true,
      if_false]
    cases v.isNull with
    | true => rfl
    | false => rfl

end Invoker

namespace CompiledPath

theorem readAll_singleton (s : PathStep) (v : Value) : readAll [s] v = s.read v :=
  bind_pure (s.read v)

end CompiledPath

namespace Evaluator

open CompiledPath (selected rel_selected length_of_selected)

variable {ts : TypeSystem} {rules : CompiledPath.Rules} {root : Ty} {path raw : String}
  {isStatic : Bool} {c c' d : PathCompiler} {e : Evaluator} {front : List String}
  {segment : Segment} {args : List Value}

theorem build_eq_ok (hraws : Segment.split path = .ok (front ++ [raw]))
    (hsegment : Segment.parse path raw = .ok segment) (hargs : segment.args? = some args)
    (hindices : segment.indices = []) {before : String} (hpath : path = before ++ raw) :
    build ts root path isStatic c = (.ok e, c') ↔
      ∃ i, Invoker.build ts root (before ++ segment.name) (args.map (Value.typeOf .empty)) isStatic
          c = (.ok i, c') ∧ e = .call i args := by
  have hlast : (front ++ [raw]).getLast?.getD "" = raw := by
    rw [List.getLast?_concat, Option.getD_some]
  have hbefore : String.ofList (path.toList.take (path.toList.length - raw.toList.length)) =
      before := by
    rw [hpath, String.toList_append, List.length_append, Nat.add_sub_cancel, List.take_left,
      String.ofList_toList]
  unfold build
  rw [Except.bind_apply, PathM.lift, hraws]
  dsimp only
  rw [hlast, Except.bind_apply, PathM.lift, hsegment]
  dsimp only
  rw [hargs]
  dsimp only
  rw [hindices, if_pos List.isEmpty_nil, hbefore, Except.bind_apply_eq_ok]
  constructor
  · rintro ⟨i, c₁, hi, h⟩
    cases h
    exact ⟨i, hi, rfl⟩
  · rintro ⟨i, hi, rfl⟩
    exact ⟨i, c', hi, rfl⟩

/-- A call alone is one to a method of the root. -/
theorem build_name_call_eq_ok (hraw : Segment.split raw = .ok [raw])
    (hsegment : Segment.parse raw raw = .ok segment) (hargs : segment.args? = some args)
    (hindices : segment.indices = []) :
    build ts root raw isStatic c = (.ok e, c') ↔
      c' = c ∧ ∃ m, selected ts root segment.name args isStatic = .ok m ∧
        e = .call ⟨none, m, isStatic, isStatic⟩ args := by
  have hs := Segment.wellNamed_of_parse hsegment
  have hraws : Segment.split raw = .ok ([] ++ [raw]) := hraw
  rw [build_eq_ok hraws hsegment hargs hindices (String.empty_append).symm, String.empty_append]
  constructor
  · rintro ⟨i, hi, rfl⟩
    obtain ⟨hc, m, hm, rfl⟩ := (Invoker.build_name_eq_ok hs).mp hi
    exact ⟨hc, m, hm, rfl⟩
  · rintro ⟨hc, m, hm, rfl⟩
    exact ⟨_, (Invoker.build_name_eq_ok hs).mpr ⟨hc, m, hm, rfl⟩, rfl⟩

/-- A call behind a receiver is one to a method of the type of that receiver. -/
theorem build_receiver_call_eq_ok {receiver : String}
    (hreceiver : Segment.split receiver = .ok front) (hraw : Segment.split raw = .ok [raw])
    (hsegment : Segment.parse (receiver ++ "." ++ raw) raw = .ok segment)
    (hargs : segment.args? = some args) (hindices : segment.indices = []) :
    build ts root (receiver ++ "." ++ raw) isStatic c = (.ok e, c') ↔
      ∃ r m, PathCompiler.compile ts root receiver isStatic c = (.ok r, c') ∧
        selected ts r.value.resultTy segment.name args false = .ok m ∧
        e = .call ⟨some r.value, m, false, isStatic⟩ args := by
  have hs := Segment.wellNamed_of_parse hsegment
  rw [build_eq_ok (Segment.split_append_dot hreceiver hraw) hsegment hargs hindices rfl]
  constructor
  · rintro ⟨i, hi, rfl⟩
    obtain ⟨r, m, hr, hm, rfl⟩ := (Invoker.build_receiver_eq_ok hreceiver hs).mp hi
    exact ⟨r, m, hr, hm, rfl⟩
  · rintro ⟨r, m, hr, hm, rfl⟩
    exact ⟨_, (Invoker.build_receiver_eq_ok hreceiver hs).mpr ⟨r, m, hr, hm, rfl⟩, rfl⟩

/-- What a call alone runs is the one step of its compiled path. -/
theorem run_name_call {root' : Ty} (hroot : root'.Same root) {m m' : MethodInfo}
    (hm : selected ts root segment.name args isStatic = .ok m)
    (hm' : selected ts root' segment.name args isStatic = .ok m') (context : Value) :
    (call ⟨none, m, isStatic, isStatic⟩ args).run context =
      CompiledPath.get ⟨root', raw, isStatic, [.member (.method m' args) isStatic]⟩ context := by
  have hsame := Except.rel_of_ok (rel_selected hroot segment.name args isStatic) hm' hm
  have halike := CompiledPath.alike_method hsame args isStatic
  have hstatic : isStatic = true → (none : Option CompiledPath) = none ∧ isStatic = true :=
    fun h => ⟨rfl, h⟩
  rw [run, Invoker.invoke_eq_read (length_of_selected hm) hstatic, CompiledPath.get,
    CompiledPath.readAll_singleton, halike.read]
  exact pure_bind _ _

/-- What a call behind a receiver runs is the path of the receiver and then the call as a step. -/
theorem run_receiver_call {r r' : CompiledPath} (hr : r.Alike r') {text : String}
    {m m' : MethodInfo} (hm : selected ts r.resultTy segment.name args false = .ok m)
    (hm' : selected ts r'.resultTy segment.name args false = .ok m') (context : Value) :
    (call ⟨some r, m, false, isStatic⟩ args).run context =
      CompiledPath.get ⟨root, text, r'.isStatic, r'.steps ++ [.member (.method m' args) false]⟩
        context := by
  have hsame := Except.rel_of_ok (rel_selected hr.resultTy segment.name args false) hm hm'
  have halike := CompiledPath.alike_method hsame args false
  have hstatic : false = true → some r = none ∧ isStatic = true := fun h => nomatch h
  have hreceiver : (⟨some r, m, false, isStatic⟩ : Invoker).receiver context = r'.get context :=
    congrFun hr.get context
  have hget : CompiledPath.get
      ⟨root, text, r'.isStatic, r'.steps ++ [.member (.method m' args) false]⟩ context =
      r'.get context >>= (PathStep.member (.method m' args) false).read := by
    refine (CompiledPath.readAll_append r'.steps _ _).trans (bind_congr fun v => ?_)
    exact CompiledPath.readAll_singleton _ v
  rw [run, Invoker.invoke_eq_read (length_of_selected hm) hstatic, hreceiver, hget]
  exact congrArg _ halike.read

/-- A call alone is built exactly if it compiles, and it runs what its compiled path reads. -/
theorem build_name_call (hd : d.Used ts rules) (hraw : Segment.split raw = .ok [raw])
    (hsegment : Segment.parse raw raw = .ok segment) (hargs : segment.args? = some args)
    (hindices : segment.indices = []) (root : Ty) (isStatic : Bool) :
    ((∃ e c', build ts root raw isStatic c = (.ok e, c')) ↔
      ∃ p d', PathCompiler.compile ts root raw isStatic d = (.ok p, d')) ∧
    ∀ e c' p d', build ts root raw isStatic c = (.ok e, c') →
      PathCompiler.compile ts root raw isStatic d = (.ok p, d') →
      (∃ i, e = .call i args) ∧ ∀ context h, e.run context h = p.value.get context h := by
  obtain ⟨hd, -⟩ := hd.coherent
  constructor
  · rw [hd.exists_compile]
    constructor
    · rintro ⟨e, c', he⟩
      obtain ⟨-, m, hm, -⟩ := (build_name_call_eq_ok hraw hsegment hargs hindices).mp he
      exact ⟨_, (CompiledPath.compile_call_eq_ok hraw hsegment hargs hindices).mpr ⟨m, hm, rfl⟩⟩
    · rintro ⟨p, hp⟩
      obtain ⟨m, hm, -⟩ := (CompiledPath.compile_call_eq_ok hraw hsegment hargs hindices).mp hp
      exact ⟨_, c, (build_name_call_eq_ok hraw hsegment hargs hindices).mpr ⟨rfl, m, hm, rfl⟩⟩
  · intro e c' p d' he hp
    obtain ⟨-, m, hm, rfl⟩ := (build_name_call_eq_ok hraw hsegment hargs hindices).mp he
    obtain ⟨root', hroot, hcompile⟩ := hd.compile_eq_ok hp
    obtain ⟨m', hm', hvalue⟩ :=
      (CompiledPath.compile_call_eq_ok hraw hsegment hargs hindices).mp hcompile
    refine ⟨⟨_, rfl⟩, fun context h => ?_⟩
    rw [hvalue, run_name_call hroot hm hm' context]

/-- A call behind a receiver is built exactly if the whole path compiles, and it runs what the
compiled path reads. -/
theorem build_receiver_call (hc : c.Used ts rules) (hd : d.Used ts rules) {receiver : String}
    (hreceiver : Segment.split receiver = .ok front) (hraw : Segment.split raw = .ok [raw])
    (hsegment : Segment.parse (receiver ++ "." ++ raw) raw = .ok segment)
    (hargs : segment.args? = some args) (hindices : segment.indices = []) (root : Ty)
    (isStatic : Bool) :
    ((∃ e c', build ts root (receiver ++ "." ++ raw) isStatic c = (.ok e, c')) ↔
      ∃ p d', PathCompiler.compile ts root (receiver ++ "." ++ raw) isStatic d = (.ok p, d')) ∧
    ∀ e c' p d', build ts root (receiver ++ "." ++ raw) isStatic c = (.ok e, c') →
      PathCompiler.compile ts root (receiver ++ "." ++ raw) isStatic d = (.ok p, d') →
      (∃ i, e = .call i args) ∧ ∀ context h, e.run context h = p.value.get context h := by
  obtain ⟨hc, hcrules⟩ := hc.coherent
  obtain ⟨hd, hdrules⟩ := hd.coherent
  have hrules := hdrules.trans hcrules.symm
  constructor
  · rw [hd.exists_compile, hrules]
    constructor
    · rintro ⟨e, c', he⟩
      obtain ⟨r, m, hr, hm, -⟩ :=
        (build_receiver_call_eq_ok hreceiver hraw hsegment hargs hindices).mp he
      obtain ⟨r', hr'⟩ := hc.exists_compile.mp ⟨r, c', hr⟩
      have halike := hc.alike hr BEq.rfl hr'
      obtain ⟨m', hm'⟩ := (Except.exists_ok_congr
        (rel_selected halike.resultTy segment.name args false)).mp ⟨m, hm⟩
      exact ⟨_, (CompiledPath.compile_receiver_call_eq_ok hreceiver hraw hsegment hargs
        hindices).mpr ⟨r', m', hr', hm', rfl⟩⟩
    · rintro ⟨p, hp⟩
      obtain ⟨r', m', hr', hm', -⟩ := (CompiledPath.compile_receiver_call_eq_ok hreceiver hraw
        hsegment hargs hindices).mp hp
      obtain ⟨r, c', hr⟩ := hc.exists_compile.mpr ⟨r', hr'⟩
      have halike := hc.alike hr BEq.rfl hr'
      obtain ⟨m, hm⟩ := (Except.exists_ok_congr
        (rel_selected halike.resultTy segment.name args false)).mpr ⟨m', hm'⟩
      exact ⟨_, c', (build_receiver_call_eq_ok hreceiver hraw hsegment hargs hindices).mpr
        ⟨r, m, hr, hm, rfl⟩⟩
  · intro e c' p d' he hp
    obtain ⟨r, m, hr, hm, rfl⟩ :=
      (build_receiver_call_eq_ok hreceiver hraw hsegment hargs hindices).mp he
    obtain ⟨root', hroot, hcompile⟩ := hd.compile_eq_ok hp
    rw [hrules] at hcompile
    obtain ⟨r', m', hr', hm', hvalue⟩ := (CompiledPath.compile_receiver_call_eq_ok hreceiver hraw
      hsegment hargs hindices).mp hcompile
    have halike := hc.alike hr hroot hr'
    obtain rfl := CompiledPath.isStatic_of_compile hr'
    refine ⟨⟨_, rfl⟩, fun context h => ?_⟩
    rw [hvalue, run_receiver_call halike hm hm' context]

/-- For every path text that ends with a call without an index, the evaluator of an expression is
built exactly if the text compiles, and running the call that it is gives in every heap and for
every context the outcome and the heap that reading the compiled path gives. The compilers may be
different ones and have kept paths before, as long as they have done so for these types. -/
theorem build_call {path : String} (hc : c.Used ts rules) (hd : d.Used ts rules)
    (hraws : Segment.split path = .ok (front ++ [raw]))
    (hsegment : Segment.parse path raw = .ok segment) (hargs : segment.args? = some args)
    (hindices : segment.indices = []) (root : Ty) (isStatic : Bool) :
    ((∃ e c', build ts root path isStatic c = (.ok e, c')) ↔
      ∃ p d', PathCompiler.compile ts root path isStatic d = (.ok p, d')) ∧
    ∀ e c' p d', build ts root path isStatic c = (.ok e, c') →
      PathCompiler.compile ts root path isStatic d = (.ok p, d') →
      (∃ i, e = .call i args) ∧ ∀ context h, e.run context h = p.value.get context h := by
  obtain ⟨hraw, ⟨-, rfl⟩ | ⟨receiver, hreceiver, rfl⟩⟩ := Segment.split_concat hraws
  · exact build_name_call hd hraw hsegment hargs hindices root isStatic
  · exact build_receiver_call hc hd hreceiver hraw hsegment hargs hindices root isStatic

namespace Sample

def shop : TypeDef :=
  { TypeDef.new "Shop" .classType with
    members := [.field ⟨"Catalog", CompiledPath.Sample.catalog.selfTy, false, .record⟩] }

def shopTypes : TypeSystem :=
  ((Registry.builtin.register CompiledPath.Sample.catalog).register shop).types 8

end Sample

/-- The receiver is compiled for itself, and the quoted dot in the argument divides nothing. -/
theorem build_call_find : ∃ e c' p d',
    build Sample.shopTypes Sample.shop.selfTy "Catalog.Find(\"a.b\")" false (.new ⟨true⟩) =
      (.ok e, c') ∧
    PathCompiler.compile Sample.shopTypes Sample.shop.selfTy "Catalog.Find(\"a.b\")" false
      (.new ⟨true⟩) = (.ok p, d') ∧
    (∃ i, e = .call i [.string "a.b"]) ∧ ∀ context h, e.run context h = p.value.get context h := by
  have hraws : Segment.split "Catalog.Find(\"a.b\")" = .ok (["Catalog"] ++ ["Find(\"a.b\")"]) := rfl
  have hsegment : Segment.parse "Catalog.Find(\"a.b\")" "Find(\"a.b\")" =
      .ok ⟨"Find", some [.string "a.b"], []⟩ := rfl
  have hnew : (PathCompiler.new ⟨true⟩).Used Sample.shopTypes ⟨true⟩ := .new
  obtain ⟨hbuilt, hsame⟩ :=
    build_call hnew hnew hraws hsegment rfl rfl Sample.shop.selfTy false
  obtain ⟨e, c', he⟩ := hbuilt.mpr ⟨_, _, rfl⟩
  exact ⟨e, c', _, _, he, rfl, hsame e c' _ _ he rfl⟩

end Evaluator

end Introspect

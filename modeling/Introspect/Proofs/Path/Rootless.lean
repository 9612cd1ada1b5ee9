import Introspect.Proofs.Path.Calls

/-!
Expressions without a root type. Such an expression checks the syntax of its path once and compiles
it for the type of every context, while one with a root type compiles it once. With the type of the
context for the root both give the same, and only what they say of a path that does not compile may
differ.
-/

namespace Introspect

/-! ### The syntax of what compiles -/

namespace CompiledPath

variable {ts : TypeSystem} {rules : Rules}

theorem parse_of_resolve {path : String} {isStatic : Bool} {owner : Ty} {raws : List String}
    {steps : List PathStep} (h : resolve ts rules path isStatic owner raws = .ok steps) :
    ∀ raw ∈ raws, ∃ segment, Segment.parse path raw = .ok segment := by
  induction raws generalizing isStatic owner steps with
  | nil => exact fun _ hraw => (nomatch hraw)
  | cons raw raws ih =>
    obtain ⟨segment, first, later, hsegment, -, hlater, -⟩ := resolve_cons_eq_ok.mp h
    exact List.forall_mem_cons.mpr ⟨⟨segment, hsegment⟩, ih hlater⟩

/-- A path that compiles splits into segments that all parse. -/
theorem split_of_compile {root : Ty} {path : String} {isStatic : Bool} {p : CompiledPath}
    (h : compile ts rules root path isStatic = .ok p) :
    ∃ raws, Segment.split path = .ok raws ∧
      ∀ raw ∈ raws, ∃ segment, Segment.parse path raw = .ok segment := by
  obtain ⟨raws, steps, hraws, hsteps, -⟩ := compile_eq_ok.mp h
  exact ⟨raws, hraws, parse_of_resolve hsteps⟩

end CompiledPath

theorem Expression.checkSyntax_eq_ok {path : String} : checkSyntax path = .ok () ↔
    ∃ raws, Segment.split path = .ok raws ∧
      ∀ raw ∈ raws, ∃ segment, Segment.parse path raw = .ok segment := by
  unfold checkSyntax
  rw [Except.bind_eq_ok]
  refine exists_congr fun raws => and_congr_right' ?_
  induction raws with
  | nil => exact ⟨fun _ _ hraw => (nomatch hraw), fun _ => rfl⟩
  | cons raw raws ih =>
    rw [List.forIn_cons, List.forall_mem_cons, ← ih]
    cases Segment.parse path raw with
    | error e => exact ⟨fun h => (nomatch h), fun ⟨⟨_, h⟩, _⟩ => (nomatch h)⟩
    | ok segment => exact ⟨fun h => ⟨⟨segment, rfl⟩, h⟩, fun ⟨_, h⟩ => h⟩

/-! ### Evaluators -/

namespace Evaluator

variable {ts : TypeSystem} {rules : CompiledPath.Rules} {root : Ty} {path : String}
  {isStatic : Bool} {c c' d : PathCompiler} {e : Evaluator}

/-- The last segment of a path parses if an evaluator is built for it. -/
theorem last_of_build (h : build ts root path isStatic c = (.ok e, c')) :
    ∃ front raw segment, Segment.split path = .ok (front ++ [raw]) ∧
      Segment.parse path raw = .ok segment := by
  obtain ⟨raws, c₁, hlift, h⟩ := Except.bind_apply_eq_ok.mp h
  have hraws := (PathM.lift_eq_ok.mp hlift).1
  obtain ⟨segment, c₂, hlift, -⟩ := Except.bind_apply_eq_ok.mp h
  have hsegment := (PathM.lift_eq_ok.mp hlift).1
  obtain ⟨front, raw, rfl⟩ :=
    (List.eq_nil_or_concat' raws).resolve_left (Segment.split_ne_nil hraws)
  rw [List.getLast?_concat, Option.getD_some] at hsegment
  exact ⟨front, raw, segment, hraws, hsegment⟩

/-- A path that does not end with a call alone is read as it is compiled. -/
theorem build_getter_eq_ok {front : List String} {raw : String} {segment : Segment}
    (hraws : Segment.split path = .ok (front ++ [raw]))
    (hsegment : Segment.parse path raw = .ok segment)
    (hcall : segment.args? = none ∨ segment.indices ≠ []) :
    build ts root path isStatic c = (.ok e, c') ↔
      ∃ p, PathCompiler.compile ts root path isStatic c = (.ok p, c') ∧ e = .getter p.value := by
  have hgetter : (do
      return .getter (← PathCompiler.compile ts root path isStatic).value : PathM Evaluator) c =
        (.ok e, c') ↔
      ∃ p, PathCompiler.compile ts root path isStatic c = (.ok p, c') ∧ e = .getter p.value := by
    rw [Except.bind_apply_eq_ok]
    constructor
    · rintro ⟨p, c₁, hp, h⟩
      cases h
      exact ⟨p, hp, rfl⟩
    · rintro ⟨p, hp, rfl⟩
      exact ⟨p, c', hp, rfl⟩
  unfold build
  rw [Except.bind_apply, PathM.lift, hraws]
  dsimp only
  rw [List.getLast?_concat, Option.getD_some, Except.bind_apply, PathM.lift, hsegment]
  dsimp only
  cases hargs : segment.args? with
  | none => exact hgetter
  | some args =>
    have hindices : segment.indices ≠ [] := hcall.resolve_left (by simp [hargs])
    dsimp only
    rw [if_neg (by simpa using hindices)]
    exact hgetter

/-- Such a path has an evaluator exactly if it compiles, and then what is run is what is read. -/
theorem build_getter (hc : c.Used ts rules) (hd : d.Used ts rules) {front : List String}
    {raw : String} {segment : Segment} (hraws : Segment.split path = .ok (front ++ [raw]))
    (hsegment : Segment.parse path raw = .ok segment)
    (hcall : segment.args? = none ∨ segment.indices ≠ []) (root : Ty) (isStatic : Bool) :
    ((∃ e c', build ts root path isStatic c = (.ok e, c')) ↔
      ∃ p d', PathCompiler.compile ts root path isStatic d = (.ok p, d')) ∧
    ∀ e c' p d', build ts root path isStatic c = (.ok e, c') →
      PathCompiler.compile ts root path isStatic d = (.ok p, d') →
      ∀ context h, e.run context h = p.value.get context h := by
  obtain ⟨hcoherent, hcrules⟩ := hc.coherent
  obtain ⟨hdcoherent, hdrules⟩ := hd.coherent
  have hrules := hdrules.trans hcrules.symm
  have hbuild {e c'} :=
    @build_getter_eq_ok ts root path isStatic c c' e _ _ _ hraws hsegment hcall
  constructor
  · calc (∃ e c', build ts root path isStatic c = (.ok e, c'))
        ↔ ∃ p c', PathCompiler.compile ts root path isStatic c = (.ok p, c') := by
          constructor
          · rintro ⟨e, c', he⟩
            obtain ⟨p, hp, -⟩ := hbuild.mp he
            exact ⟨p, c', hp⟩
          · rintro ⟨p, c', hp⟩
            exact ⟨_, c', hbuild.mpr ⟨p, hp, rfl⟩⟩
      _ ↔ ∃ p d', PathCompiler.compile ts root path isStatic d = (.ok p, d') := by
          rw [hcoherent.exists_compile, hdcoherent.exists_compile, hrules]
  · intro e c' p d' he hp context h
    obtain ⟨q, hq, rfl⟩ := hbuild.mp he
    obtain ⟨root', hroot, hcompile⟩ := hdcoherent.compile_eq_ok hp
    rw [hrules] at hcompile
    -- The two compilers may have kept the path for roots that are equal but not the same.
    exact congrFun (congrFun (hcoherent.alike hq hroot hcompile).get context) h

/-- The last segment of a path parses if the path compiles. -/
theorem last_of_compile (hd : d.Used ts rules) {p : Shared CompiledPath} {d' : PathCompiler}
    (h : PathCompiler.compile ts root path isStatic d = (.ok p, d')) :
    ∃ front raw segment, Segment.split path = .ok (front ++ [raw]) ∧
      Segment.parse path raw = .ok segment := by
  obtain ⟨q, hq⟩ := hd.coherent.1.exists_compile.mp ⟨p, d', h⟩
  obtain ⟨raws, hraws, hsegments⟩ := CompiledPath.split_of_compile hq
  obtain ⟨front, raw, rfl⟩ :=
    (List.eq_nil_or_concat' raws).resolve_left (Segment.split_ne_nil hraws)
  obtain ⟨segment, hsegment⟩ := hsegments raw (List.mem_append_right _ List.mem_cons_self)
  exact ⟨front, raw, segment, hraws, hsegment⟩

/-- For every path text the evaluator is built exactly if the text compiles, and then it runs what
the compiled path reads. -/
theorem build_compile (hc : c.Used ts rules) (hd : d.Used ts rules) (root : Ty) (path : String)
    (isStatic : Bool) :
    ((∃ e c', build ts root path isStatic c = (.ok e, c')) ↔
      ∃ p d', PathCompiler.compile ts root path isStatic d = (.ok p, d')) ∧
    ∀ e c' p d', build ts root path isStatic c = (.ok e, c') →
      PathCompiler.compile ts root path isStatic d = (.ok p, d') →
      ∀ context h, e.run context h = p.value.get context h := by
  by_cases hlast : ∃ front raw segment, Segment.split path = .ok (front ++ [raw]) ∧
      Segment.parse path raw = .ok segment
  · obtain ⟨front, raw, segment, hraws, hsegment⟩ := hlast
    by_cases hcall : segment.args? = none ∨ segment.indices ≠ []
    · exact build_getter hc hd hraws hsegment hcall root isStatic
    · obtain ⟨hargs, hindices⟩ := not_or.mp hcall
      obtain ⟨args, hargs⟩ := Option.ne_none_iff_exists'.mp hargs
      have hindices := not_not.mp hindices
      obtain ⟨hraw, ⟨-, rfl⟩ | ⟨receiver, hreceiver, rfl⟩⟩ := Segment.split_concat hraws
      · obtain ⟨hbuilt, hsame⟩ := build_name_call hd hraw hsegment hargs hindices root isStatic
        exact ⟨hbuilt, fun e c' p d' he hp => (hsame e c' p d' he hp).2⟩
      · obtain ⟨hbuilt, hsame⟩ :=
          build_receiver_call hc hd hreceiver hraw hsegment hargs hindices root isStatic
        exact ⟨hbuilt, fun e c' p d' he hp => (hsame e c' p d' he hp).2⟩
  · have hbuild : ¬∃ e c', build ts root path isStatic c = (.ok e, c') :=
      fun ⟨_, _, he⟩ => hlast (last_of_build he)
    have hcompile : ¬∃ p d', PathCompiler.compile ts root path isStatic d = (.ok p, d') :=
      fun ⟨_, _, hp⟩ => hlast (last_of_compile hd hp)
    exact ⟨iff_of_false hbuild hcompile, fun e c' _ _ he => absurd ⟨e, c', he⟩ hbuild⟩

/-- The compilers that evaluators are built with make no difference. -/
theorem build_alike (hc : c.Used ts rules) (hd : d.Used ts rules) (root : Ty) (path : String)
    (isStatic : Bool) :
    ((∃ e c', build ts root path isStatic c = (.ok e, c')) ↔
      ∃ e d', build ts root path isStatic d = (.ok e, d')) ∧
    ∀ e c' e' d', build ts root path isStatic c = (.ok e, c') →
      build ts root path isStatic d = (.ok e', d') →
      ∀ context h, e.run context h = e'.run context h := by
  obtain ⟨hbuilt, hrun⟩ := build_compile hc hd root path isStatic
  obtain ⟨hbuilt', hrun'⟩ := build_compile hd hd root path isStatic
  refine ⟨hbuilt.trans hbuilt'.symm, fun e c' e' d' he he' context h => ?_⟩
  obtain ⟨p, d'', hp⟩ := hbuilt.mp ⟨e, c', he⟩
  rw [hrun e c' p d'' he hp, hrun' e' d' p d'' he' hp]

/-- What an evaluator is built for has the syntax of a path. -/
theorem checkSyntax_of_build (hc : c.Used ts rules)
    (h : build ts root path isStatic c = (.ok e, c')) : Expression.checkSyntax path = .ok () := by
  obtain ⟨p, d', hp⟩ := (build_compile hc hc root path isStatic).1.mp ⟨e, c', h⟩
  obtain ⟨q, hq⟩ := hc.coherent.1.exists_compile.mp ⟨p, d', hp⟩
  exact Expression.checkSyntax_eq_ok.mpr (CompiledPath.split_of_compile hq)

end Evaluator

/-! ### Expressions -/

namespace Expression

variable {ts : TypeSystem} {rules : CompiledPath.Rules} {e : Expression} {ty : Ty}
  {c c' d : PathCompiler} {x y : Evaluator}

/-- The expression with a root. -/
def rooted (e : Expression) (root : Ty) : Expression := { e with root? := some root }

/-- Where the path of an expression begins: at the type that a directive names, or at the root. An
expression without a root begins at the context, which is of type `ty`. -/
def beginning (ts : TypeSystem) (e : Expression) (ty : Ty) : Except Error (Ty × String × Bool) := do
  match ← Directive.parse e.source with
  | .fromType typeName path => return (← ts.resolve typeName, path, true)
  | .fromContext path => return (e.root?.getD ty, path, false)

/-- The evaluator that an expression runs for a context of type `ty`. -/
def found (ts : TypeSystem) (e : Expression) (ty : Ty) (c : PathCompiler) :
    Except Error Evaluator :=
  (e.evaluator ts ty c).1.1

section

variable {err : Error} {typeName path : String} {root : Ty}

theorem resolution_of_error (hdirective : Directive.parse e.source = .error err) :
    e.resolution ts c = (.error err, c) := by
  rw [resolution, Except.bind_apply, PathM.lift, hdirective]

theorem resolution_of_type_error
    (hdirective : Directive.parse e.source = .ok (.fromType typeName path))
    (htype : ts.resolve typeName = .error err) : e.resolution ts c = (.error err, c) := by
  rw [resolution, Except.bind_apply, PathM.lift, hdirective]
  dsimp only
  rw [Except.bind_apply, PathM.lift, htype]

theorem resolution_of_type
    (hdirective : Directive.parse e.source = .ok (.fromType typeName path))
    (htype : ts.resolve typeName = .ok root) : e.resolution ts c = (do
      return .ready (← Evaluator.build ts root path true) : PathM Resolution) c := by
  rw [resolution, Except.bind_apply, PathM.lift, hdirective]
  dsimp only
  rw [Except.bind_apply, PathM.lift, htype]

theorem resolution_of_root (hdirective : Directive.parse e.source = .ok (.fromContext path))
    (hroot : e.root? = some root) : e.resolution ts c = (do
      return .ready (← Evaluator.build ts root path false) : PathM Resolution) c := by
  rw [resolution, Except.bind_apply, PathM.lift, hdirective]
  dsimp only
  rw [hroot]

theorem resolution_rootless (hdirective : Directive.parse e.source = .ok (.fromContext path))
    (hroot : e.root? = none) :
    e.resolution ts c = ((checkSyntax path).map fun _ => .perContext path, c) := by
  rw [resolution, Except.bind_apply, PathM.lift, hdirective]
  dsimp only
  rw [hroot]
  dsimp only
  rw [Except.bind_apply, PathM.lift]
  cases checkSyntax path with
  | error err => rfl
  | ok _ => rfl

end

/-- The expression with what it resolves to kept. -/
def kept (e : Expression) (r : Except Error Resolution) : Expression :=
  { e with memo := some (r.mapError Error.message) }

theorem resolve_fresh (hmemo : e.memo = none) {r : Except Error Resolution}
    (h : e.resolution ts c = (r, c')) :
    e.resolve ts c = ((r.mapError Error.message, e.kept r), c') := by
  have hresolve : e.resolve ts c = (((e.resolution ts c).1.mapError Error.message,
      e.kept (e.resolution ts c).1), (e.resolution ts c).2) := by
    unfold resolve
    rw [hmemo]
    rfl
  rw [hresolve, h]

theorem bind_apply {α β : Type} (a : StateM PathCompiler α) (f : α → StateM PathCompiler β) :
    (a >>= f) c = f (a c).1 (a c).2 := rfl

theorem found_of_error (hmemo : e.memo = none) {err : Error}
    (h : e.resolution ts c = (.error err, c')) :
    e.found ts ty c = .error (.invalidExpression e.text err.message) := by
  rw [found, evaluator, bind_apply, resolve_fresh hmemo h]
  rfl

theorem found_of_ready (hmemo : e.memo = none) (h : e.resolution ts c = (.ok (.ready x), c')) :
    e.found ts ty c = .ok x := by
  rw [found, evaluator, bind_apply, resolve_fresh hmemo h]
  rfl

theorem found_of_perContext (hmemo : e.memo = none) {path : String}
    (h : e.resolution ts c = (.ok (.perContext path), c')) :
    e.found ts ty c = (Evaluator.build ts ty path false c').1 := by
  rw [found, evaluator, bind_apply, resolve_fresh hmemo h]
  rfl

/-- An evaluator that an expression resolves to is one that is built for its root. -/
theorem found_of_build (hmemo : e.memo = none) {root : Ty} {path : String} {isStatic : Bool}
    (h : e.resolution ts c = (do
      return .ready (← Evaluator.build ts root path isStatic) : PathM Resolution) c) :
    e.found ts ty c = .ok x ↔ ∃ c', Evaluator.build ts root path isStatic c = (.ok x, c') := by
  rw [Except.bind_apply] at h
  rcases hbuild : Evaluator.build ts root path isStatic c with ⟨err | y, c'⟩
  · rw [hbuild] at h
    rw [found_of_error hmemo h]
    exact ⟨fun hx => (nomatch hx), fun ⟨_, hx⟩ => (nomatch hx)⟩
  · rw [hbuild] at h
    rw [found_of_ready hmemo h]
    constructor
    · intro hx
      cases hx
      exact ⟨c', rfl⟩
    · rintro ⟨_, hx⟩
      cases hx
      rfl

/-- What a fresh expression runs is built where its path begins, also when it has no root. -/
theorem found_eq_ok (hc : c.Used ts rules) (hmemo : e.memo = none) :
    e.found ts ty c = .ok x ↔ ∃ root path isStatic c',
      e.beginning ts ty = .ok (root, path, isStatic) ∧
      Evaluator.build ts root path isStatic c = (.ok x, c') := by
  have hfails {err : Error} (hbegin : e.beginning ts ty = .error err)
      (h : e.resolution ts c = (.error err, c)) : e.found ts ty c = .ok x ↔
        ∃ root path isStatic c', e.beginning ts ty = .ok (root, path, isStatic) ∧
          Evaluator.build ts root path isStatic c = (.ok x, c') := by
    rw [found_of_error hmemo h, hbegin]
    exact ⟨fun hx => (nomatch hx), fun ⟨_, _, _, _, hx, _⟩ => (nomatch hx)⟩
  have hbegins {root : Ty} {path : String} {isStatic : Bool}
      (hbegin : e.beginning ts ty = .ok (root, path, isStatic))
      (h : e.found ts ty c = .ok x ↔ ∃ c', Evaluator.build ts root path isStatic c = (.ok x, c')) :
      e.found ts ty c = .ok x ↔
        ∃ root path isStatic c', e.beginning ts ty = .ok (root, path, isStatic) ∧
          Evaluator.build ts root path isStatic c = (.ok x, c') := by
    rw [h, hbegin]
    constructor
    · rintro ⟨c', hx⟩
      exact ⟨root, path, isStatic, c', rfl, hx⟩
    · rintro ⟨_, _, _, c', hsame, hx⟩
      cases hsame
      exact ⟨c', hx⟩
  rcases hdirective : Directive.parse e.source with err | ⟨path⟩ | ⟨typeName, path⟩
  · refine hfails ?_ (resolution_of_error hdirective)
    rw [beginning, hdirective]
    rfl
  · have hbegin : e.beginning ts ty = .ok (e.root?.getD ty, path, false) := by
      rw [beginning, hdirective]
      rfl
    refine hbegins hbegin ?_
    cases hroot : e.root? with
    | some root => exact found_of_build hmemo (resolution_of_root hdirective hroot)
    | none =>
      have h : e.resolution ts c = _ := resolution_rootless hdirective hroot
      cases hchecked : checkSyntax path with
      | ok _ =>
        rw [hchecked] at h
        rw [found_of_perContext hmemo h]
        exact ⟨fun hx => ⟨_, Prod.ext hx rfl⟩, fun ⟨_, hx⟩ => congrArg Prod.fst hx⟩
      | error err =>
        -- Nothing can be built for a path without the syntax of one.
        rw [hchecked] at h
        rw [found_of_error hmemo h]
        refine ⟨fun hx => (nomatch hx), fun ⟨c', hx⟩ => ?_⟩
        cases hchecked.symm.trans (Evaluator.checkSyntax_of_build hc hx)
  · cases htype : ts.resolve typeName with
    | error err =>
      refine hfails ?_ (resolution_of_type_error hdirective htype)
      rw [beginning, hdirective]
      change (ts.resolve typeName >>= _) = _
      rw [htype]
      rfl
    | ok root =>
      refine hbegins ?_ (found_of_build hmemo (resolution_of_type hdirective htype))
      rw [beginning, hdirective]
      change (ts.resolve typeName >>= _) = _
      rw [htype]
      rfl

/-- A root that is the type of the context can be left out. -/
theorem found_rootless (hc : c.Used ts rules) (hd : d.Used ts rules) (hmemo : e.memo = none)
    (hroot : e.root? = none) :
    ((∃ x, e.found ts ty c = .ok x) ↔ ∃ y, (e.rooted ty).found ts ty d = .ok y) ∧
    ∀ x y, e.found ts ty c = .ok x → (e.rooted ty).found ts ty d = .ok y →
      ∀ context h, x.run context h = y.run context h := by
  have hsame : (e.rooted ty).beginning ts ty = e.beginning ts ty := by
    rw [beginning, beginning, hroot]
    rfl
  have hrootless {x} := @found_eq_ok ts rules e ty c x hc hmemo
  have hrooted {y} := @found_eq_ok ts rules (e.rooted ty) ty d y hd hmemo
  rw [hsame] at hrooted
  constructor
  · constructor
    · rintro ⟨x, hx⟩
      obtain ⟨root, path, isStatic, c', hbegin, hx⟩ := hrootless.mp hx
      obtain ⟨y, d', hy⟩ := (Evaluator.build_alike hc hd root path isStatic).1.mp ⟨x, c', hx⟩
      exact ⟨y, hrooted.mpr ⟨root, path, isStatic, d', hbegin, hy⟩⟩
    · rintro ⟨y, hy⟩
      obtain ⟨root, path, isStatic, d', hbegin, hy⟩ := hrooted.mp hy
      obtain ⟨x, c', hx⟩ := (Evaluator.build_alike hc hd root path isStatic).1.mpr ⟨y, d', hy⟩
      exact ⟨x, hrootless.mpr ⟨root, path, isStatic, c', hbegin, hx⟩⟩
  · intro x y hx hy
    obtain ⟨root, path, isStatic, c', hbegin, hx⟩ := hrootless.mp hx
    obtain ⟨_, _, _, d', hbegin', hy⟩ := hrooted.mp hy
    cases hbegin.symm.trans hbegin'
    exact (Evaluator.build_alike hc hd root path isStatic).2 x c' y d' hx hy

/-! ### Evaluation -/

/-- What an expression evaluates to, and the heap that is left behind. -/
def outcome (ts : TypeSystem) (e : Expression) (context : Value) (c : PathCompiler) (h : Heap) :
    Except Error Value × Heap :=
  let (result, _, _, h) := e.evaluate ts context c h
  (result, h)

variable {context : Value} {h : Heap}

theorem outcome_of_literal (hliteral : e.isLiteral = true) :
    e.outcome ts context c h = (.ok (.string e.text), h) := by
  rw [outcome, evaluate, if_pos hliteral]

theorem outcome_of_found (hdynamic : e.isLiteral = false)
    (hx : e.found ts (context.typeOf h) c = .ok x) :
    e.outcome ts context c h = x.run context h := by
  rw [found] at hx
  rcases hrun : e.evaluator ts (context.typeOf h) c with ⟨⟨found, e'⟩, c'⟩
  rw [hrun] at hx
  obtain rfl : found = .ok x := hx
  have hstate : (e.evaluator ts (context.typeOf h)).run c = ((.ok x, e'), c') := hrun
  rw [outcome, evaluate, hdynamic, if_neg Bool.false_ne_true, hstate]
  rfl

/-- Nothing is run and the heap stays as it is if there is no evaluator. -/
theorem outcome_of_not_found (hdynamic : e.isLiteral = false) {err : Error}
    (herr : e.found ts (context.typeOf h) c = .error err) :
    e.outcome ts context c h = (.error err, h) := by
  rw [found] at herr
  rcases hrun : e.evaluator ts (context.typeOf h) c with ⟨⟨found, e'⟩, c'⟩
  rw [hrun] at herr
  obtain rfl : found = .error err := herr
  have hstate : (e.evaluator ts (context.typeOf h)).run c = ((.error err, e'), c') := hrun
  rw [outcome, evaluate, hdynamic, if_neg Bool.false_ne_true, hstate]

/-- With a root an expression resolves to an evaluator. -/
theorem ready_of_resolution {root : Ty} (hroot : e.root? = some root) {r : Resolution}
    (h : e.resolution ts c = (.ok r, c')) : ∃ x, r = .ready x := by
  have hready {root : Ty} {path : String} {isStatic : Bool}
      (hbuild : e.resolution ts c = (do
        return .ready (← Evaluator.build ts root path isStatic) : PathM Resolution) c) :
      ∃ x, r = .ready x := by
    obtain ⟨x, c₁, -, hr⟩ := Except.bind_apply_eq_ok.mp (hbuild.symm.trans h)
    cases hr
    exact ⟨x, rfl⟩
  rcases hdirective : Directive.parse e.source with err | ⟨path⟩ | ⟨typeName, path⟩
  · cases (resolution_of_error hdirective).symm.trans h
  · exact hready (resolution_of_root hdirective hroot)
  · cases htype : ts.resolve typeName with
    | error err => cases (resolution_of_type_error hdirective htype).symm.trans h
    | ok root => exact hready (resolution_of_type hdirective htype)

/-- An expression with a root and no error has an evaluator, and it keeps that for every context. -/
theorem found_of_error?_eq_none (hdynamic : e.isLiteral = false) (hmemo : e.memo = none)
    {root : Ty} (hroot : e.root? = some root) {e' : Expression}
    (h : e.error? ts c = ((none, e'), c')) :
    e'.isLiteral = false ∧ ∃ x, e.found ts ty c = .ok x ∧ ∀ ty d, e'.found ts ty d = .ok x := by
  rw [error?, hdynamic, if_neg Bool.false_ne_true, bind_apply] at h
  rcases hresolution : e.resolution ts c with ⟨err | r, c₁⟩
  · rw [resolve_fresh hmemo hresolution] at h
    cases h
  · rw [resolve_fresh hmemo hresolution] at h
    cases h
    obtain ⟨x, rfl⟩ := ready_of_resolution hroot hresolution
    exact ⟨hdynamic, x, found_of_ready hmemo hresolution, fun _ _ => rfl⟩

theorem new_some (text : String) (root : Ty) (flagGating : Bool) :
    new text (some root) flagGating = (new text none flagGating).rooted root := by
  unfold new
  split
  · split
    · rfl
    · rfl
  · rfl

theorem fresh_new (text : String) (root? : Option Ty) (flagGating : Bool) :
    (new text root? flagGating).memo = none ∧ (new text root? flagGating).root? = root? := by
  unfold new
  split
  · split
    · exact ⟨rfl, rfl⟩
    · exact ⟨rfl, rfl⟩
  · exact ⟨rfl, rfl⟩

/-- Without a root and with the type of the context for it a dynamic expression runs alike, or not at
all. -/
theorem outcome_rootless (hc : c.Used ts rules) (hd : d.Used ts rules) (hmemo : e.memo = none)
    (hroot : e.root? = none) (hdynamic : e.isLiteral = false) (context : Value) (h : Heap) :
    (∃ y, (e.rooted (context.typeOf h)).found ts (context.typeOf h) d = .ok y ∧
      (e.rooted (context.typeOf h)).outcome ts context d h = y.run context h ∧
      e.outcome ts context c h = y.run context h) ∨
    ∃ err err', (e.rooted (context.typeOf h)).found ts (context.typeOf h) d = .error err ∧
      (e.rooted (context.typeOf h)).outcome ts context d h = (.error err, h) ∧
      e.outcome ts context c h = (.error err', h) := by
  have hrooted : (e.rooted (context.typeOf h)).isLiteral = false := hdynamic
  obtain ⟨hfound, hrun⟩ := @found_rootless ts rules e (context.typeOf h) c d hc hd hmemo hroot
  cases hy : (e.rooted (context.typeOf h)).found ts (context.typeOf h) d with
  | ok y =>
    obtain ⟨x, hx⟩ := hfound.mpr ⟨y, hy⟩
    left
    refine ⟨y, rfl, outcome_of_found hrooted hy, ?_⟩
    rw [outcome_of_found hdynamic hx]
    exact hrun x y hx hy context h
  | error err =>
    right
    cases hx : e.found ts (context.typeOf h) c with
    | ok x =>
      obtain ⟨y, hy'⟩ := hfound.mp ⟨x, hx⟩
      cases hy.symm.trans hy'
    | error err' =>
      exact ⟨err, err', rfl, outcome_of_not_found hrooted hy, outcome_of_not_found hdynamic hx⟩

/-- An expression without a root type evaluates to a value exactly if one with the type of the
context for its root does, and then to the same value and with the same heap. If the latter has no
error before it is evaluated, both give the same result, errors included, and so does the latter
when it is evaluated afterwards. The compilers may have kept paths before, as long as they have done
so for these types. -/
theorem evaluate_rootless (hc : c.Used ts rules) (hd : d.Used ts rules) (text : String)
    (flagGating : Bool) (context : Value) (h : Heap) :
    (∀ w h', (new text none flagGating).outcome ts context c h = (.ok w, h') ↔
      (new text (some (context.typeOf h)) flagGating).outcome ts context d h = (.ok w, h')) ∧
    ∀ e d', (new text (some (context.typeOf h)) flagGating).error? ts d = ((none, e), d') →
      (new text (some (context.typeOf h)) flagGating).outcome ts context d h =
        (new text none flagGating).outcome ts context c h ∧
      e.outcome ts context d' h = (new text none flagGating).outcome ts context c h := by
  obtain ⟨hmemo, hroot⟩ := fresh_new text none flagGating
  rw [new_some]
  generalize new text none flagGating = e at hmemo hroot ⊢
  cases hliteral : e.isLiteral with
  | true =>
    -- The text of a literal is its value, and the root plays no part.
    have hrooted : (e.rooted (context.typeOf h)).isLiteral = true := hliteral
    have htext {d} : (e.rooted (context.typeOf h)).outcome ts context d h =
        e.outcome ts context c h := by
      rw [outcome_of_literal hrooted, outcome_of_literal hliteral]
      rfl
    rw [htext]
    refine ⟨fun _ _ => Iff.rfl, fun e' d' herror => ⟨rfl, ?_⟩⟩
    rw [error?, if_pos hrooted] at herror
    cases herror
    exact htext
  | false =>
    have hrooted : (e.rooted (context.typeOf h)).isLiteral = false := hliteral
    rcases outcome_rootless hc hd hmemo hroot hliteral context h with
      ⟨y, hy, hwith, hwithout⟩ | ⟨err, err', hy, hwith, hwithout⟩
    · rw [hwith, hwithout]
      refine ⟨fun _ _ => Iff.rfl, fun e' d' herror => ⟨rfl, ?_⟩⟩
      -- What was found before the evaluation is what it runs.
      obtain ⟨hdynamic, y', hy', hkept⟩ := found_of_error?_eq_none hrooted hmemo rfl herror
      obtain rfl : y = y' := Except.ok.inj (hy.symm.trans hy')
      exact outcome_of_found hdynamic (hkept _ _)
    · rw [hwith, hwithout]
      refine ⟨fun w h' => iff_of_false nofun nofun, fun e' d' herror => ?_⟩
      obtain ⟨-, y, hy', -⟩ := found_of_error?_eq_none hrooted hmemo rfl herror
      cases hy.symm.trans hy'

namespace Sample

/-- A catalog that finds no items. -/
def emptyCatalog : Heap := ⟨#[⟨CompiledPath.Sample.catalog.selfTy, []⟩], #[⟨some .int, []⟩], #[]⟩

end Sample

/-- The path compiles, but the array that is found has no item to read. -/
theorem evaluate_rootless_find : ∃ e d',
    (new "@-p: Find(\"a.b\")[7]" (some CompiledPath.Sample.catalog.selfTy) true).error?
      CompiledPath.Sample.catalogTypes (.new ⟨true⟩) = ((none, e), d') ∧
    (new "@-p: Find(\"a.b\")[7]" none true).outcome CompiledPath.Sample.catalogTypes (.object 0)
      (.new ⟨true⟩) Sample.emptyCatalog = (.error (.indexOutOfRange 7 0), Sample.emptyCatalog) ∧
    (new "@-p: Find(\"a.b\")[7]" (some CompiledPath.Sample.catalog.selfTy) true).outcome
      CompiledPath.Sample.catalogTypes (.object 0) (.new ⟨true⟩) Sample.emptyCatalog =
        (.error (.indexOutOfRange 7 0), Sample.emptyCatalog) ∧
    e.outcome CompiledPath.Sample.catalogTypes (.object 0) d' Sample.emptyCatalog =
        (.error (.indexOutOfRange 7 0), Sample.emptyCatalog) := by
  have hnew : (PathCompiler.new ⟨true⟩).Used CompiledPath.Sample.catalogTypes ⟨true⟩ := .new
  have hrootless : (new "@-p: Find(\"a.b\")[7]" none true).outcome CompiledPath.Sample.catalogTypes
      (.object 0) (.new ⟨true⟩) Sample.emptyCatalog =
        (.error (.indexOutOfRange 7 0), Sample.emptyCatalog) := rfl
  obtain ⟨hrooted, hkept⟩ := (evaluate_rootless hnew hnew "@-p: Find(\"a.b\")[7]" true (.object 0)
    Sample.emptyCatalog).2 _ _ rfl
  exact ⟨_, _, rfl, hrootless, hrooted.trans hrootless, hkept.trans hrootless⟩

end Expression

end Introspect

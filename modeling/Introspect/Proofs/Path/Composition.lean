import Introspect.Path.Access
import Introspect.Proofs.Path.Resolution
import Introspect.Proofs.Path.Splitting
import Introspect.Registry

/-!
Composition of paths. A path resolves segment by segment, each against the type where the one before
it ends, and its text matters to errors alone. So two paths joined by a dot compile exactly if the
second compiles against the type of the first, and reading through both is reading through one after
the other.
-/

namespace Introspect

/-! ### The text of a path is for errors -/

namespace Segment

variable (path path' raw : String)

theorem toOption_parseCall (cs : List Char) :
    (parseCall path raw cs).toOption = (parseCall path' raw cs).toOption := by
  unfold parseCall
  split
  next cs =>
    cases cutCall 0 .outside cs with
    | none => rfl
    | some cut =>
      dsimp only
      cases Literal.parseArgs cut.1 with
      | error e => rfl
      | ok args => rfl
  next => rfl

theorem toOption_parseIndices (fuel : Nat) (cs : List Char) :
    (parseIndices path raw fuel cs).toOption = (parseIndices path' raw fuel cs).toOption := by
  induction fuel generalizing cs with
  | zero => rfl
  | succ fuel ih =>
    unfold parseIndices
    split
    next fuel' cs hfuel =>
      cases hfuel
      dsimp only
      split
      · rfl
      next bracket rest hrest =>
        split
        · rfl
        next index => exact Except.toOption_bind_congr (ih rest) fun _ => rfl
    next => rfl

theorem toOption_parse : (parse path raw).toOption = (parse path' raw).toOption := by
  unfold parse
  dsimp only
  split
  · rfl
  · refine Except.toOption_bind_congr (toOption_parseCall path path' _ _) fun call => ?_
    refine Except.toOption_bind_congr (toOption_parseIndices path path' _ _ _) fun indices => ?_
    split
    · rfl
    · rfl

end Segment

namespace CompiledPath

section

variable {ts : TypeSystem} {rules : Rules} (path path' : String)

theorem toOption_memberStep (owner : Ty) (segment : Segment) (isStatic : Bool) :
    (memberStep ts rules owner segment isStatic path).toOption =
      (memberStep ts rules owner segment isStatic path').toOption := by
  simp only [memberStep]
  split
  · rfl
  · split
    · rfl
    · split
      · rfl
      · split
        · rfl
        · split
          · rfl
          · rfl

theorem toOption_firstStaticStep (owner : Ty) (segment : Segment) :
    (firstStaticStep ts rules owner segment path).toOption =
      (memberStep ts rules owner segment true path).toOption := by
  unfold firstStaticStep
  split
  next h =>
    rw [h]
    rfl
  next => rfl

theorem toOption_indexSteps (owner : Ty) (indices : List Nat) :
    (indexSteps ts path owner indices).toOption = (indexSteps ts path' owner indices).toOption := by
  induction indices generalizing owner with
  | nil => rfl
  | cons index rest ih =>
    have hstep : (indexStep ts owner index path).toOption =
        (indexStep ts owner index path').toOption := by
      unfold indexStep
      rcases ts.indexKind? owner with _ | (_ | _ | _) <;> rfl
    refine Except.toOption_bind_congr hstep fun step => ?_
    exact Except.toOption_bind_congr (ih step.resultTy) fun _ => rfl

theorem toOption_segmentSteps (isStatic : Bool) (owner : Ty) (segment : Segment) :
    (segmentSteps ts rules path isStatic owner segment).toOption =
      (segmentSteps ts rules path' isStatic owner segment).toOption := by
  have hindices (step : PathStep) := Except.toOption_bind_congr
    (@toOption_indexSteps ts path path' step.resultTy segment.indices)
    fun later => (rfl : (Except.ok (step :: later) : Except Error _).toOption = _)
  cases isStatic with
  | true =>
    refine Except.toOption_bind_congr ?_ hindices
    rw [toOption_firstStaticStep, toOption_firstStaticStep, toOption_memberStep path path']
  | false => exact Except.toOption_bind_congr (toOption_memberStep path path' _ _ _) hindices

theorem toOption_resolve (isStatic : Bool) (owner : Ty) (raws : List String) :
    (resolve ts rules path isStatic owner raws).toOption =
      (resolve ts rules path' isStatic owner raws).toOption := by
  induction raws generalizing isStatic owner with
  | nil => rfl
  | cons raw rest ih =>
    refine Except.toOption_bind_congr (Segment.toOption_parse path path' raw) fun segment => ?_
    refine Except.toOption_bind_congr (toOption_segmentSteps path path' _ _ _) fun steps => ?_
    exact Except.toOption_bind_congr (ih false (endTy owner steps)) fun _ => rfl

end

section

variable {ts : TypeSystem} {rules : Rules}

theorem resolve_congr {path path' : String} {isStatic : Bool} {owner : Ty} {raws : List String}
    {steps : List PathStep} : resolve ts rules path isStatic owner raws = .ok steps ↔
      resolve ts rules path' isStatic owner raws = .ok steps := by
  rw [← Except.toOption_eq_some, toOption_resolve path path', Except.toOption_eq_some]

/-! ### One path after another -/

theorem endTy_append (root : Ty) (front back : List PathStep) :
    endTy root (front ++ back) = endTy (endTy root front) back := by
  unfold endTy
  rw [List.getLast?_append]
  cases back.getLast? with
  | none => rfl
  | some last => rfl

theorem resolve_cons_eq_ok {path : String} {isStatic : Bool} {owner : Ty} {raw : String}
    {rest : List String} {steps : List PathStep} :
    resolve ts rules path isStatic owner (raw :: rest) = .ok steps ↔
      ∃ segment first later, Segment.parse path raw = .ok segment ∧
        segmentSteps ts rules path isStatic owner segment = .ok first ∧
        resolve ts rules path false (endTy owner first) rest = .ok later ∧
        steps = first ++ later := by
  constructor
  · intro h
    obtain ⟨segment, hsegment, h⟩ := Except.bind_eq_ok.mp h
    obtain ⟨first, hfirst, h⟩ := Except.bind_eq_ok.mp h
    obtain ⟨later, hlater, h⟩ := Except.bind_eq_ok.mp h
    cases h
    exact ⟨segment, first, later, hsegment, hfirst, hlater, rfl⟩
  · rintro ⟨segment, first, later, hsegment, hfirst, hlater, rfl⟩
    refine Except.bind_eq_ok.mpr ⟨segment, hsegment, Except.bind_eq_ok.mpr ⟨first, hfirst, ?_⟩⟩
    exact Except.bind_eq_ok.mpr ⟨later, hlater, rfl⟩

/-- What comes behind other segments resolves against the type where they end, and among members of
instances unless it comes first. -/
theorem resolve_append_eq_ok {path : String} {isStatic : Bool} {owner : Ty}
    {raws rest : List String} {steps : List PathStep} :
    resolve ts rules path isStatic owner (raws ++ rest) = .ok steps ↔
      ∃ front back, resolve ts rules path isStatic owner raws = .ok front ∧
        resolve ts rules path (isStatic && raws.isEmpty) (endTy owner front) rest = .ok back ∧
        steps = front ++ back := by
  induction raws generalizing isStatic owner steps with
  | nil =>
    constructor
    · intro h
      exact ⟨[], steps, rfl, by simpa [endTy] using h, rfl⟩
    · rintro ⟨front, back, hfront, hback, rfl⟩
      cases hfront
      simpa [endTy] using hback
  | cons raw raws ih =>
    -- Only the first segment can be static, so what follows it resolves as behind an instance.
    rw [List.cons_append, resolve_cons_eq_ok, List.isEmpty_cons, Bool.and_false]
    constructor
    · rintro ⟨segment, first, later, hsegment, hfirst, hlater, rfl⟩
      obtain ⟨front, back, hfront, hback, rfl⟩ := ih.mp hlater
      refine ⟨first ++ front, back, ?_, ?_, (List.append_assoc first front back).symm⟩
      · exact resolve_cons_eq_ok.mpr ⟨segment, first, front, hsegment, hfirst, hfront, rfl⟩
      · rw [endTy_append]
        exact hback
    · rintro ⟨front, back, hfront, hback, rfl⟩
      obtain ⟨segment, first, later, hsegment, hfirst, hlater, rfl⟩ :=
        resolve_cons_eq_ok.mp hfront
      rw [endTy_append] at hback
      have hrest := ih.mpr ⟨later, back, hlater, hback, rfl⟩
      exact ⟨segment, first, later ++ back, hsegment, hfirst, hrest,
        List.append_assoc first later back⟩

theorem compile_eq_ok {root : Ty} {text : String} {isStatic : Bool} {p : CompiledPath} :
    compile ts rules root text isStatic = .ok p ↔
      ∃ raws steps, Segment.split text = .ok raws ∧
        resolve ts rules text isStatic root raws = .ok steps ∧
        p = ⟨root, text, isStatic, steps⟩ := by
  unfold compile
  constructor
  · intro h
    split at h
    · cases h
    · obtain ⟨raws, hraws, h⟩ := Except.bind_eq_ok.mp h
      obtain ⟨steps, hsteps, h⟩ := Except.bind_eq_ok.mp h
      cases h
      exact ⟨raws, steps, hraws, hsteps, rfl⟩
  · rintro ⟨raws, steps, hraws, hsteps, rfl⟩
    have hblank : ¬(Text.trim text.toList).isEmpty = true := by
      rw [List.isEmpty_iff]
      exact Segment.trim_ne_nil_of_split hraws
    rw [if_neg hblank]
    refine Except.bind_eq_ok.mpr ⟨raws, hraws, ?_⟩
    exact Except.bind_eq_ok.mpr ⟨steps, hsteps, rfl⟩

/-- A joined path is made of one for its front and one for its back, compiled against the type where
the front ends. -/
theorem compile_append_dot_eq_ok {p q : String} {ps qs : List String}
    (hp : Segment.split p = .ok ps) (hq : Segment.split q = .ok qs) {root : Ty} {isStatic : Bool}
    {joined : CompiledPath} :
    compile ts rules root (p ++ "." ++ q) isStatic = .ok joined ↔
      ∃ front back, compile ts rules root p isStatic = .ok front ∧
        compile ts rules front.resultTy q false = .ok back ∧
        joined = ⟨root, p ++ "." ++ q, isStatic, front.steps ++ back.steps⟩ := by
  have hjoin := Segment.split_append_dot hp hq
  have hfirst : (isStatic && ps.isEmpty) = false := by
    rw [List.isEmpty_eq_false_iff.mpr (Segment.split_ne_nil hp), Bool.and_false]
  constructor
  · intro h
    obtain ⟨raws, steps, hraws, hsteps, rfl⟩ := compile_eq_ok.mp h
    obtain rfl : ps ++ qs = raws := Except.ok.inj (hjoin.symm.trans hraws)
    obtain ⟨front, back, hfront, hback, rfl⟩ := resolve_append_eq_ok.mp hsteps
    rw [hfirst] at hback
    -- Each half was resolved under the joined text, which only its errors would show.
    refine ⟨⟨root, p, isStatic, front⟩, ⟨endTy root front, q, false, back⟩, ?_, ?_, rfl⟩
    · exact compile_eq_ok.mpr ⟨ps, front, hp, resolve_congr.mp hfront, rfl⟩
    · exact compile_eq_ok.mpr ⟨qs, back, hq, resolve_congr.mp hback, rfl⟩
  · rintro ⟨front, back, hfront, hback, rfl⟩
    obtain ⟨ps', front, hps, hfront, rfl⟩ := compile_eq_ok.mp hfront
    obtain ⟨qs', back, hqs, hback, rfl⟩ := compile_eq_ok.mp hback
    obtain rfl : ps = ps' := Except.ok.inj (hp.symm.trans hps)
    obtain rfl : qs = qs' := Except.ok.inj (hq.symm.trans hqs)
    refine compile_eq_ok.mpr ⟨ps ++ qs, front ++ back, hjoin, ?_, rfl⟩
    refine resolve_append_eq_ok.mpr ⟨front, back, resolve_congr.mp hfront, ?_, rfl⟩
    rw [hfirst]
    exact resolve_congr.mp hback

theorem isStatic_of_compile {root : Ty} {text : String} {isStatic : Bool} {p : CompiledPath}
    (h : compile ts rules root text isStatic = .ok p) : p.isStatic = isStatic := by
  obtain ⟨_, _, -, -, rfl⟩ := compile_eq_ok.mp h
  rfl

theorem readAll_append (front back : List PathStep) (v : Value) :
    readAll (front ++ back) v = readAll front v >>= readAll back := List.foldlM_append

namespace Sample

/-- A class with a method that finds an array by a text. -/
def catalog : TypeDef :=
  { TypeDef.new "Catalog" .classType with
    members := [.method ⟨"Find", [⟨"key", .string⟩], .array .int, false,
      Accessor.constant (.array 0)⟩] }

def catalogTypes : TypeSystem := (Registry.builtin.register catalog).types 8

end Sample

/-- Two paths joined by a dot compile exactly if the first does and the second does, as a path of
instances, against the type of the first. The steps are then those of both, and reading through the
joined path is, in every heap, reading through the first and from the value found through the
second. -/
theorem compile_join {p q : String} {ps qs : List String} (hp : Segment.split p = .ok ps)
    (hq : Segment.split q = .ok qs) (root : Ty) (isStatic : Bool) :
    ((∃ joined, compile ts rules root (p ++ "." ++ q) isStatic = .ok joined) ↔
      ∃ front, compile ts rules root p isStatic = .ok front ∧
        ∃ back, compile ts rules front.resultTy q false = .ok back) ∧
    ∀ joined front back, compile ts rules root (p ++ "." ++ q) isStatic = .ok joined →
      compile ts rules root p isStatic = .ok front →
      compile ts rules front.resultTy q false = .ok back →
      joined.steps = front.steps ++ back.steps ∧ ∀ v, joined.get v = front.get v >>= back.get := by
  constructor
  · constructor
    · rintro ⟨joined, h⟩
      obtain ⟨front, back, hfront, hback, -⟩ := (compile_append_dot_eq_ok hp hq).mp h
      exact ⟨front, hfront, back, hback⟩
    · rintro ⟨front, hfront, back, hback⟩
      exact ⟨_, (compile_append_dot_eq_ok hp hq).mpr ⟨front, back, hfront, hback, rfl⟩⟩
  · intro joined front back hjoined hfront hback
    have hsame := (compile_append_dot_eq_ok hp hq).mpr ⟨front, back, hfront, hback, rfl⟩
    obtain rfl := Except.ok.inj (hjoined.symm.trans hsame)
    refine ⟨rfl, fun v => ?_⟩
    -- The back starts at the value that the front gives, as it is not static.
    have hback : back.get = readAll back.steps := by
      funext w
      rw [get, start, isStatic_of_compile hback, if_neg Bool.false_ne_true]
    have hstart : front.start v = if isStatic then .null else v := by
      rw [start, isStatic_of_compile hfront]
    rw [hback, get, get, hstart]
    exact readAll_append front.steps back.steps _

theorem compile_join_find_length :
    ∃ joined front back,
      compile Sample.catalogTypes ⟨true⟩ Sample.catalog.selfTy "Find(\"a.b\").Length" false =
          .ok joined ∧
      compile Sample.catalogTypes ⟨true⟩ Sample.catalog.selfTy "Find(\"a.b\")" false = .ok front ∧
      compile Sample.catalogTypes ⟨true⟩ (.array .int) "Length" false = .ok back ∧
      joined.steps = front.steps ++ back.steps ∧ ∀ v, joined.get v = front.get v >>= back.get := by
  have hfind : Segment.split "Find(\"a.b\")" = .ok ["Find(\"a.b\")"] := rfl
  have hlength : Segment.split "Length" = .ok ["Length"] := rfl
  obtain ⟨hcompile, hboth⟩ := @compile_join Sample.catalogTypes ⟨true⟩ _ _ _ _ hfind hlength
    Sample.catalog.selfTy false
  obtain ⟨joined, hjoined⟩ := hcompile.mpr ⟨_, rfl, _, rfl⟩
  exact ⟨joined, _, _, hjoined, rfl, rfl, hboth joined _ _ hjoined rfl rfl⟩

end

end CompiledPath

end Introspect

import Introspect.Proofs.Path.Assignment

/-!
Writability is checked once, when a path is made ready for writing, and on the types of its steps
alone. A write goes back along the values that it met, as long as those were copies. Where a step
reads copies only if its type is a value type, the check is enough: no write comes to a step that
cannot take it.
-/

namespace Introspect

/-- Whether an action that starts with a heap does not end with the report that something is not
writable. -/
def Action.Unrefused {α : Type} (x : Action α) (h : Heap) : Prop :=
  ∀ path reason, (x h).1 ≠ .error (.notWritable path reason)

theorem Action.unrefused_bind {α β : Type} {x : Action α} {f : α → Action β} {h : Heap}
    (hx : x.Unrefused h) (hf : ∀ a h', x h = (.ok a, h') → (f a).Unrefused h') :
    Action.Unrefused (x >>= f) h := by
  intro path reason
  rcases hr : x h with ⟨e | a, h'⟩
  · rw [Action.bind_error hr]
    have he := hx path reason
    rw [hr] at he
    exact fun heq => he (congrArg Except.error (Except.error.inj heq))
  · rw [Action.bind_ok hr]
    exact hf a h' hr path reason

/-! ### Steps -/

namespace PathStep

variable {s : PathStep}

theorem unrefused_receiver (target : StepTarget) (isStatic : Bool) (owner : Value) (h : Heap) :
    (receiver target isStatic owner).Unrefused h := by
  intro path reason heq
  unfold receiver at heq
  split at heq
  · cases heq
  · split at heq <;> cases heq

theorem unrefused_field (name : String) (owner : Value) (h : Heap) :
    (Action.read fun h => owner.field h name).Unrefused h := by
  intro path reason heq
  rw [Action.read_apply] at heq
  cases owner with
  | struct ty fields =>
    simp only [Value.field] at heq
    split at heq <;> cases heq
  | object id =>
    simp only [Value.field] at heq
    split at heq <;> cases heq
  | _ => cases heq

theorem element_ne_notWritable {index : Nat} {owner : Value} {h : Heap} (path reason : String) :
    owner.element h index ≠ .error (.notWritable path reason) := by
  intro heq
  cases hid : owner.sequenceId h with
  | error e =>
    simp only [Value.element, hid] at heq
    cases owner <;> cases hid <;> cases heq
  | ok id =>
    simp only [Value.element, hid, bind, Except.bind] at heq
    split at heq <;> cases heq

theorem unrefused_readElement (s : PathStep) (fits : Bool) (shape : String) (index : Nat)
    (owner : Value) (h : Heap) : (s.readElement fits shape index owner).Unrefused h := by
  intro path reason heq
  rw [readElement, Action.read_apply] at heq
  dsimp only at heq
  split at heq
  · exact element_ne_notWritable path reason heq
  · split at heq <;> cases heq

/-- A read from a field or an element fails for what it finds, and not for want of a setter. -/
theorem unrefused_read (hs : s.isStored = true) (owner : Value) (h : Heap) :
    (s.read owner).Unrefused h := by
  cases s with
  | member target isStatic =>
    cases target with
    | field f =>
      refine Action.unrefused_bind (unrefused_receiver _ isStatic owner h) fun owner' h' _ => ?_
      simp only [FieldInfo.get]
      split
      next => exact unrefused_field f.name owner' h'
      next => exact fun path reason heq => by cases heq
    | property p => cases hs
    | method m args => cases hs
  | arrayElement index elem => exact unrefused_readElement _ _ _ _ owner h
  | typedElement index elem | untypedElement index => exact unrefused_readElement _ _ _ _ owner h

theorem unrefused_withElement (owner v : Value) (index : Nat) (h : Heap) :
    (owner.withElement index v).Unrefused h := by
  intro path reason heq
  rw [withElement_apply] at heq
  split at heq
  next id hid => split at heq <;> cases heq
  next e hid => cases owner <;> cases hid <;> cases heq

theorem unrefused_withField (owner v : Value) (name : String) (h : Heap) :
    (owner.withField name v).Unrefused h := by
  intro path reason heq
  cases owner <;> cases heq

/-- A step to a field that may be written, or to an element, takes what it is given or fails for
what its owner is. -/
theorem unrefused_write (hs : s.isStored = true) (hw : s.propagatesWrites = true) (owner v : Value)
    (h : Heap) : (s.write owner v).Unrefused h := by
  cases s with
  | member target isStatic =>
    cases target with
    | field f =>
      have hreadOnly : f.readOnly = false := by simpa [propagatesWrites, isWritable] using hw
      refine Action.unrefused_bind (unrefused_receiver _ isStatic owner h) fun owner' h' _ => ?_
      simp only [hreadOnly, Bool.false_eq_true, if_false, FieldInfo.set]
      split
      next => exact unrefused_withField owner' v f.name h'
      next => exact fun path reason heq => by cases heq
    | property p => cases hs
    | method m args => cases hs
  | arrayElement index elem | typedElement index elem | untypedElement index =>
    exact unrefused_withElement owner v index h

end PathStep

/-! ### Walks -/

namespace CompiledPath

open PathStep Stop

theorem unrefused_owners {steps : List PathStep} (hs : ∀ s ∈ steps, s.isStored = true) (v : Value)
    (h : Heap) : (owners steps v).Unrefused h := by
  induction steps generalizing v h with
  | nil => exact fun path reason heq => by cases heq
  | cons s rest ih =>
    cases rest with
    | nil => exact fun path reason heq => by cases heq
    | cons s' rest =>
      refine Action.unrefused_bind (unrefused_read (hs s (by simp)) v h) fun next h' _ => ?_
      refine Action.unrefused_bind (ih (fun t ht => hs t (List.mem_cons_of_mem s ht)) next h') ?_
      exact fun os h'' _ path reason heq => by cases heq

/-- Whether each step that a write backwards may come to can take it: the first, and each other one
behind nothing but copies. -/
def TakesBack : List Stop → Prop
  | [] => True
  | (s, owner) :: rest =>
    s.propagatesWrites = true ∧ (owner.hasValueSemantics = true → TakesBack rest)

theorem unrefused_writeBack {xs : List Stop} (hs : ∀ x ∈ xs, x.1.isStored = true)
    (hxs : TakesBack xs) (v : Value) (h : Heap) : (writeBack xs v).Unrefused h := by
  induction xs generalizing v h with
  | nil => exact fun path reason heq => by cases heq
  | cons x rest ih =>
    obtain ⟨s, owner⟩ := x
    obtain ⟨hx, hrest⟩ := List.forall_mem_cons.mp hs
    refine Action.unrefused_bind (unrefused_write hx hxs.1 owner v h) fun written h' _ => ?_
    split
    next hcopied => exact ih hrest (hxs.2 hcopied) written h'
    next => exact fun path reason heq => by cases heq

theorem takesBack_concat {xs : List Stop} {s : PathStep} {owner : Value} (hxs : TakesBack xs)
    (hs : (∀ x ∈ xs, x.2.hasValueSemantics = true) → s.propagatesWrites = true) :
    TakesBack (xs ++ [(s, owner)]) := by
  induction xs with
  | nil => exact ⟨hs nofun, fun _ => trivial⟩
  | cons x rest ih =>
    obtain ⟨t, o⟩ := x
    exact ⟨hxs.1, fun hcopied => ih (hxs.2 hcopied) fun hrest =>
      hs (List.forall_mem_cons.mpr ⟨hcopied, hrest⟩)⟩

/-- A write takes its way back if each step that reads a copy can take one. -/
theorem takesBack_of_walk {h : Heap} {v : Value} {xs : List Stop} (hwalk : Walk h v xs)
    (hs : ∀ x ∈ xs, x.1.isStored = true)
    (hlast : ∀ s ∈ (xs.map Prod.fst).getLast?, s.propagatesWrites = true)
    (hcopies : ∀ front s rest w, xs.map Prod.fst = front ++ s :: rest → rest ≠ [] →
      readAll (front ++ [s]) v h = (.ok w, h) → w.hasValueSemantics = true →
        s.propagatesWrites = true) : TakesBack xs.reverse := by
  induction hwalk with
  | last s v => exact ⟨hlast s rfl, fun _ => trivial⟩
  | @step s v next rest hsuits hnext hrest ih =>
    have hread : s.read v h = (.ok next, h) :=
      (read_eq_ok_iff (hs (s, v) List.mem_cons_self)).mpr ⟨rfl, hsuits, hnext⟩
    obtain ⟨t, tail, rfl⟩ : ∃ t tail, rest = (t, next) :: tail := by
      cases hrest <;> exact ⟨_, _, rfl⟩
    rw [List.reverse_cons]
    refine takesBack_concat (ih (fun x hx => hs x (List.mem_cons_of_mem _ hx)) ?_ ?_) ?_
    · intro u hu
      refine hlast u ?_
      rwa [List.map_cons, List.map_cons, List.getLast?_cons_cons]
    · intro front u behind w hsplit hbehind hw
      refine hcopies (s :: front) u behind w (congrArg (s :: ·) hsplit) hbehind ?_
      rw [List.cons_append, readAll_cons, Action.bind_ok hread]
      exact hw
    · -- The value that this step reads is the owner of the next one.
      intro hcopied
      refine hcopies [] s (t :: tail.map Prod.fst) next rfl (by simp) ?_
        (hcopied (t, next) (by simp))
      rw [List.nil_append, readAll_cons, Action.bind_ok hread]
      rfl

/-! ### The check -/

/-- Whether what a step before the last one reads is a copy only if the type of the step is a value
type, so that no struct stands behind the type of an object. -/
def Unboxed (ts : TypeSystem) (p : CompiledPath) (m : Memory) : Prop :=
  ∀ front s rest v, p.steps = front ++ s :: rest → rest ≠ [] →
    readAll (front ++ [s]) (p.start m.root) m.heap = (.ok v, m.heap) →
      v.hasValueSemantics = true → ts.isValueType s.resultTy = true

/-- A step before the last one that returns a value type can store it back. -/
theorem propagatesWrites_of_checkWritable {ts : TypeSystem} {p : CompiledPath}
    (hw : p.checkWritable ts = .ok ()) {front rest : List PathStep} {s : PathStep}
    (hsteps : p.steps = front ++ s :: rest) (hrest : rest ≠ [])
    (hs : ts.isValueType s.resultTy = true) : s.propagatesWrites = true := by
  have hmem : s ∈ p.steps.dropLast := by
    rw [hsteps, List.dropLast_append_cons, List.dropLast_cons_of_ne_nil hrest]
    simp
  unfold checkWritable at hw
  split at hw
  next => cases hw
  next last _ =>
    split at hw
    next => cases hw
    next =>
      split at hw
      next hnone => simpa [hs] using List.find?_eq_none.mp hnone s hmem
      next => cases hw

theorem propagatesWrites_of_isWritable {s : PathStep} (hs : s.isWritable = true) :
    s.propagatesWrites = true := by
  cases s with
  | member target isStatic => exact hs
  | _ => rfl

theorem unrefused_checkValue (ts : TypeSystem) (p : CompiledPath) (value : Value) (h : Heap) :
    (p.checkValue ts value).Unrefused h := by
  intro path reason heq
  rw [checkValue, Action.read_apply] at heq
  dsimp only at heq
  split at heq <;> cases heq

namespace Sample

/-- The path `main.squad[0].position.x`, where `main` is a static field and the list is read-only,
while the player in it is a struct. -/
def captain : CompiledPath where
  root := .plain "Team"
  text := "main.squad[0].position.x"
  isStatic := true
  steps := [.member (.field ⟨"main", .plain "Team", false, .slot 0⟩) true,
    .member (.field ⟨"squad", .list (.plain "Player"), true, .record⟩) false,
    .typedElement 0 (.plain "Player"),
    .member (.field ⟨"position", .plain "Vector", false, .record⟩) false,
    .member (.field ⟨"x", .int, false, .record⟩) false]

def player (x : Int64) : Value := .struct (.plain "Player") [("position", position x)]

/-- A team in the slot, with one player in its list. -/
def teams (x : Int64) : Memory where
  root := .null
  heap := ⟨#[⟨.plain "Team", [("squad", .list 0)]⟩],
    #[⟨some (.plain "Player"), [player x]⟩], #[.object 0]⟩

def teamTypes : TypeSystem := Registry.types ⟨Registry.builtin.definitions ++
  [.new "Vector" .structType, .new "Player" .structType, .new "Team" .classType]⟩ 8

theorem captain_unboxed : captain.Unboxed teamTypes (teams 1) := by
  intro front s rest v hsteps hrest hread hcopied
  rcases front with _ | ⟨a, _ | ⟨b, _ | ⟨c, _ | ⟨d, front⟩⟩⟩⟩
  -- The team and its list are shared, and the types of the player and its position are structs.
  · cases hsteps
    cases hread
    cases hcopied
  · cases hsteps
    cases hread
    cases hcopied
  · cases hsteps
    rfl
  · cases hsteps
    rfl
  · simp only [captain, List.cons_append, List.cons.injEq] at hsteps
    obtain ⟨-, -, -, -, htail⟩ := hsteps
    rcases List.append_eq_singleton_iff.mp htail.symm with ⟨-, htail⟩ | ⟨-, htail⟩
    · exact absurd (List.cons.inj htail).2 hrest
    · cases htail

end Sample

/-- A path of fields and elements that the check lets through is never refused as not writable,
whatever is written and however long the path is. -/
theorem set_ne_notWritable (ts : TypeSystem) {p : CompiledPath}
    (hp : ∀ s ∈ p.steps, s.isStored = true) (hw : p.checkWritable ts = .ok ()) {m : Memory}
    (hm : p.Unboxed ts m) (value : Value) (path reason : String) :
    (p.set ts m.root value m.heap).1 ≠ .error (.notWritable path reason) := by
  -- The check of the value and the reads on the way fail for other reasons, if they do.
  refine Action.unrefused_bind (unrefused_checkValue ts p value m.heap) (fun _ h hcheck => ?_)
    path reason
  obtain rfl : m.heap = h := congrArg Prod.snd hcheck
  refine Action.unrefused_bind (unrefused_owners hp _ m.heap) fun os h hos => ?_
  rcases owners_cases hp (ne_nil_of_checkWritable hw) (p.start m.root) m.heap with
    ⟨e, he⟩ | ⟨os', hos', hmap, hwalk⟩
  · rw [he] at hos
    cases hos
  rw [hos'] at hos
  cases hos
  have hstored : ∀ x ∈ p.steps.zip os, x.1.isStored = true := fun x hx =>
    hp x.1 (List.of_mem_zip hx).1
  have hback : TakesBack (p.steps.zip os).reverse := by
    apply takesBack_of_walk hwalk hstored <;> rw [hmap]
    · intro s hs
      obtain ⟨last, hlast, hwritable⟩ := isWritable_of_checkWritable hw
      rw [hlast] at hs
      cases hs
      exact propagatesWrites_of_isWritable hwritable
    · intro front s rest v hsteps hrest hread hcopied
      exact propagatesWrites_of_checkWritable hw hsteps hrest
        (hm front s rest v hsteps hrest hread hcopied)
  have hreversed : ∀ x ∈ (p.steps.zip os).reverse, x.1.isStored = true := by simpa using hstored
  refine Action.unrefused_bind (unrefused_writeBack hreversed hback value m.heap) ?_
  intro written h _
  split <;> exact fun path reason heq => by cases heq

theorem set_captain_ne_notWritable :
    (∀ s ∈ Sample.captain.steps, s.isStored = true) ∧
    Sample.captain.checkWritable Sample.teamTypes = .ok () ∧
    Sample.captain.Unboxed Sample.teamTypes (Sample.teams 1) ∧
    Sample.captain.set Sample.teamTypes .null (.int 7) (Sample.teams 1).heap =
      (.ok .null, (Sample.teams 7).heap) ∧
    ∀ value path reason,
      (Sample.captain.set Sample.teamTypes .null value (Sample.teams 1).heap).1 ≠
        .error (.notWritable path reason) := by
  have hstored : ∀ s ∈ Sample.captain.steps, s.isStored = true := by decide
  have hcheck : Sample.captain.checkWritable Sample.teamTypes = .ok () := rfl
  have hwritten := set_ne_notWritable Sample.teamTypes hstored hcheck Sample.captain_unboxed
  exact ⟨hstored, hcheck, Sample.captain_unboxed, rfl, hwritten⟩

end CompiledPath

end Introspect

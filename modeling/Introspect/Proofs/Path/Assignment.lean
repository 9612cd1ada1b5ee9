import Introspect.Proofs.Path.StoredStep
import Introspect.Registry

/-!
Writes through paths of fields and elements. A write that fails changes nothing. One that succeeds
changes a single place, the last that the path goes through in the heap, and in its content only the
field that the steps behind that place lead to. What was written is read again through the same path
unless an earlier step of it reads from the place that changed.
-/

namespace Introspect

namespace Value

/-- Whether two contents of a place agree outside of the field that a chain of names leads to. -/
def AgreeOutside : List String → Option Value → Option Value → Prop
  | [], _, _ => True
  | name :: rest, some (.struct ty fields), some (.struct ty' fields') =>
    ty' = ty ∧
      (∀ other, other ≠ name → Assoc.find? other fields' = Assoc.find? other fields) ∧
      AgreeOutside rest (Assoc.find? name fields) (Assoc.find? name fields')
  | _ :: _, _, _ => False

/-- The value that a chain of names leads to through nested structs. -/
def nested? : List String → Value → Option Value
  | [], v => some v
  | name :: rest, .struct _ fields => (Assoc.find? name fields).bind (nested? rest)
  | _ :: _, _ => none

end Value

/-- A step with the owner that it meets. -/
abbrev Stop := PathStep × Value

namespace Stop

def place? (x : Stop) : Option Place := x.1.place? x.2

/-- A walk through the steps from a value on. Each step but the last finds the owner of the next. -/
inductive Walk (h : Heap) : Value → List Stop → Prop where
  | last (s : PathStep) (v : Value) : Walk h v [(s, v)]
  | step {s : PathStep} {v next : Value} {rest : List Stop} (hsuits : s.Suits v)
      (hnext : s.found? v h = some next) (hrest : Walk h next rest) : Walk h v ((s, v) :: rest)

/-- A write through nested structs: each is copied with the changed one behind it in its field. -/
inductive Rebuilt (v : Value) : List Stop → Value → Prop where
  | nil : Rebuilt v [] v
  | cons {s : PathStep} {ty : Ty} {fields : Fields} {rest : List Stop} {w : Value}
      (hq : s.place? (.struct ty fields) = none) (hsuits : s.Suits (.struct ty fields))
      (hrest : Rebuilt v rest w) :
      Rebuilt v ((s, .struct ty fields) :: rest) (.struct ty (Assoc.put s.text w fields))

/-- How a write through steps and their owners ends: it fails, it leads to a new first owner, or it
stores in the place of some step, all steps behind which go through structs. -/
inductive Outcome (xs : List Stop) (v : Value) (h : Heap) :
    Except Error (Option Value) → Heap → Prop where
  | failed (e : Error) : Outcome xs v h (.error e) h
  | replaced {w : Value} (hw : Rebuilt v xs w) : Outcome xs v h (.ok (some w)) h
  | stored {front inner : List Stop} {s : PathStep} {o w r : Value} {q : Place}
      (hxs : xs = front ++ (s, o) :: inner) (hw : Rebuilt v inner w) (hq : s.place? o = some q)
      (hwrite : s.write o w h = (.ok r, h.store w q)) : Outcome xs v h (.ok none) (h.store w q)

end Stop

namespace CompiledPath

open PathStep Stop

/-! ### The walk of a path -/

theorem owners_cases {steps : List PathStep} (hs : ∀ s ∈ steps, s.isStored = true)
    (hne : steps ≠ []) (v : Value) (h : Heap) :
    (∃ e, owners steps v h = (.error e, h)) ∨
      ∃ os, owners steps v h = (.ok os, h) ∧ (steps.zip os).map Prod.fst = steps ∧
        Walk h v (steps.zip os) := by
  induction steps generalizing v with
  | nil => exact absurd rfl hne
  | cons s rest ih =>
    cases rest with
    | nil => exact Or.inr ⟨[v], rfl, rfl, .last s v⟩
    | cons s' rest =>
      rcases read_cases (hs s (by simp)) v h with ⟨e, he⟩ | ⟨next, hr, hsuits, hnext⟩
      · exact Or.inl ⟨e, Action.bind_error he⟩
      · have hcons : owners (s :: s' :: rest) v h =
            (do return v :: (← owners (s' :: rest) next) : Action (List Value)) h :=
          Action.bind_ok hr
        rw [hcons]
        rcases ih (fun t ht => hs t (List.mem_cons_of_mem s ht)) (by simp) next with
          ⟨e, he⟩ | ⟨os, hos, hmap, hwalk⟩
        · exact Or.inl ⟨e, Action.bind_error he⟩
        · refine Or.inr ⟨v :: os, Action.bind_ok hos, ?_, .step hsuits hnext hwalk⟩
          rw [List.zip_cons_cons, List.map_cons, hmap]

/-! ### The write backwards -/

theorem writeBack_append (xs ys : List Stop) (v : Value) (h : Heap) :
    writeBack (xs ++ ys) v h =
      match writeBack xs v h with
      | (.ok (some w), h') => writeBack ys w h'
      | (.ok none, h') => (.ok none, h')
      | (.error e, h') => (.error e, h') := by
  induction xs generalizing v h with
  | nil => rfl
  | cons x xs ih =>
    obtain ⟨s, o⟩ := x
    simp only [List.cons_append, writeBack, Action.bind_apply]
    rcases s.write o v h with ⟨e | w, h'⟩
    · rfl
    · cases ho : o.hasValueSemantics with
      | true => exact ih w h'
      | false => rfl

/-- A write backwards through the steps of a walk has one of three outcomes, and the last step in
whose place it stores ends it. -/
theorem writeBack_outcome (xs : List Stop) (hs : ∀ x ∈ xs, x.1.isStored = true)
    (hstatic : ∀ x ∈ xs, x.1.isStatic = true → x.2 = .null) (v : Value) (h : Heap) :
    ∃ r h', writeBack xs.reverse v h = (r, h') ∧ Outcome xs v h r h' := by
  induction xs with
  | nil => exact ⟨_, h, rfl, .replaced .nil⟩
  | cons x rest ih =>
    obtain ⟨s, o⟩ := x
    obtain ⟨r, h', hr, hout⟩ := ih (fun y hy => hs y (List.mem_cons_of_mem _ hy))
      (fun y hy => hstatic y (List.mem_cons_of_mem _ hy))
    rw [List.reverse_cons, writeBack_append, hr]
    cases hout with
    | failed e => exact ⟨.error e, h, rfl, .failed e⟩
    | @stored front inner t p w r q hxs hw hq hwrite =>
      have hcons : (s, o) :: rest = ((s, o) :: front) ++ (t, p) :: inner := by
        rw [hxs, List.cons_append]
      exact ⟨.ok none, h.store w q, rfl, .stored hcons hw hq hwrite⟩
    | @replaced w hw =>
      -- All owners behind were copies, so the new one is written through this step.
      have hs₀ : s.isStored = true := hs (s, o) List.mem_cons_self
      rcases write_cases hs₀ o w h with ⟨e, he⟩ | ⟨r, h', hr, hws⟩
      · exact ⟨.error e, h, Action.bind_error he, .failed e⟩
      · cases hws with
        | stored q r hq _ =>
          have ho := not_copied_of_place? hs₀ (hstatic (s, o) List.mem_cons_self) hq
          have hxs : (s, o) :: rest = [] ++ (s, o) :: rest := rfl
          refine ⟨.ok none, h.store w q, ?_, .stored hxs hw hq hr⟩
          exact (Action.bind_ok hr).trans (by rw [ho]; rfl)
        | copied ty fields hq hsuits ho =>
          subst ho
          exact ⟨_, h, Action.bind_ok hr, .replaced (.cons hq hsuits hw)⟩

/-! ### The place of a write -/

/-- A path of fields and elements. Only a static path has a static step, and that is its first. -/
structure IsStored (p : CompiledPath) : Prop where
  stored : ∀ s ∈ p.steps, s.isStored = true
  first : ∀ s ∈ p.steps.head?, s.isStatic = p.isStatic
  later : ∀ s ∈ p.steps.tail, s.isStatic = false

/-- The steps with the owners that a write through the path meets. -/
def stops (p : CompiledPath) (m : Memory) : List Stop :=
  match (owners p.steps (p.start m.root) m.heap).1 with
  | .ok os => p.steps.zip os
  | .error _ => []

/-- The places that the path goes through. -/
def places (p : CompiledPath) (m : Memory) : List Place := (p.stops m).filterMap Stop.place?

/-- The one place whose content a write changes. -/
def target (p : CompiledPath) (m : Memory) : Place := (p.places m).getLast?.getD .root

/-- The places that the path reads on its way to the one that a write changes. -/
def passed (p : CompiledPath) (m : Memory) : List Place := (p.places m).dropLast

/-- The names of the nested fields that lead from the content of that place to what is written. -/
def nested (p : CompiledPath) (m : Memory) : List String :=
  ((p.stops m).reverse.takeWhile fun x => x.place?.isNone).reverse.map fun x => x.1.text

/-- Writes to the variable that holds the root. A failure leaves the variable alone. -/
def assign (ts : TypeSystem) (p : CompiledPath) (value : Value) (m : Memory) :
    Except Error Unit × Memory :=
  match p.set ts m.root value m.heap with
  | (.ok root, heap) => (.ok (), ⟨root, heap⟩)
  | (.error e, heap) => (.error e, ⟨m.root, heap⟩)

/-- What a write that succeeds does to the memory. -/
inductive Assigned (p : CompiledPath) (value : Value) (m : Memory) : Memory → Prop where
  | root {w : Value} (hw : Rebuilt value (p.stops m) w) : Assigned p value m { m with root := w }
  | heap {front inner : List Stop} {s : PathStep} {o w r : Value} {q : Place}
      (hstops : p.stops m = front ++ (s, o) :: inner) (hw : Rebuilt value inner w)
      (hq : s.place? o = some q) (hwrite : s.write o w m.heap = (.ok r, m.heap.store w q)) :
      Assigned p value m { m with heap := m.heap.store w q }

theorem null_of_isStatic {p : CompiledPath} (hp : p.IsStored) {xs : List Stop} {root : Value}
    {h : Heap} (hmap : xs.map Prod.fst = p.steps) (hwalk : Walk h (p.start root) xs) :
    ∀ x ∈ xs, x.1.isStatic = true → x.2 = .null := by
  have hfirst := hp.first
  have hlater := hp.later
  rw [← hmap] at hfirst hlater
  -- A static step is the first of a static path, which starts at null.
  have hstart (s : PathStep) (hs : s.isStatic = p.isStatic) (ht : s.isStatic = true) :
      p.start root = .null := by
    simp only [start, ← hs, ht, if_true]
  cases hwalk with
  | last s v =>
    intro x hx ht
    rw [List.mem_singleton] at hx
    subst hx
    exact hstart s (hfirst s (by simp)) ht
  | @step s v next rest hsuits hnext hrest =>
    intro x hx ht
    rcases List.mem_cons.mp hx with rfl | hx
    · exact hstart s (hfirst s (by simp)) ht
    · have hmem : x.1 ∈ rest.map Prod.fst := List.mem_map_of_mem hx
      rw [hlater x.1 hmem] at ht
      cases ht

theorem not_static_of_rebuilt {p : CompiledPath} {xs : List Stop} {root value w : Value} {h : Heap}
    (hwalk : Walk h (p.start root) xs) (hw : Rebuilt value xs w) : p.isStatic = false := by
  cases hw with
  | nil => cases hwalk
  | @cons s ty fields rest w hq hsuits hrest =>
    have hstart : p.start root = .struct ty fields := by
      generalize p.start root = v at hwalk
      cases hwalk <;> rfl
    simp only [start] at hstart
    split at hstart
    next => cases hstart
    next hs => simpa using hs

theorem set_of_unfit {ts : TypeSystem} {p : CompiledPath} {value : Value} {h : Heap}
    (hfits : p.fits ts h value = false) (root : Value) :
    p.set ts root value h =
      (.error (.typeMismatch p.resultTy.text (value.typeOf h).text), h) := by
  apply Action.bind_error
  simp only [checkValue, Action.read_apply, hfits, Bool.false_eq_true, if_false]

theorem set_of_fits {ts : TypeSystem} {p : CompiledPath} {value : Value} {h : Heap}
    (hfits : p.fits ts h value = true) (root : Value) :
    p.set ts root value h =
      match owners p.steps (p.start root) h with
      | (.error e, h₁) => (.error e, h₁)
      | (.ok os, h₁) =>
        match writeBack (p.steps.zip os).reverse value h₁ with
        | (.error e, h₂) => (.error e, h₂)
        | (.ok none, h₂) => (.ok root, h₂)
        | (.ok (some written), h₂) => (.ok (if p.isStatic then root else written), h₂) := by
  have hcheck : p.checkValue ts value h = (.ok (), h) := by
    simp only [checkValue, Action.read_apply, hfits, if_true]
  refine (Action.bind_ok hcheck).trans ?_
  rw [Action.bind_apply]
  rcases owners p.steps (p.start root) h with ⟨e | os, h₁⟩
  · rfl
  · dsimp only
    rw [Action.bind_apply]
    rcases writeBack (p.steps.zip os).reverse value h₁ with ⟨e | written | written, h₂⟩ <;> rfl

/-- A write to a root either fails and leaves the memory alone, or walks to a place and stores. -/
theorem assign_cases (ts : TypeSystem) {p : CompiledPath} (hp : p.IsStored) (hne : p.steps ≠ [])
    (value : Value) (m : Memory) :
    (∃ e, p.assign ts value m = (.error e, m)) ∨
      ∃ m', p.assign ts value m = (.ok (), m') ∧ (p.stops m).map Prod.fst = p.steps ∧
        Walk m.heap (p.start m.root) (p.stops m) ∧ p.Assigned value m m' := by
  unfold assign
  cases hfits : p.fits ts m.heap value with
  | false =>
    rw [set_of_unfit hfits]
    exact Or.inl ⟨_, rfl⟩
  | true =>
    rw [set_of_fits hfits]
    rcases owners_cases hp.stored hne (p.start m.root) m.heap with ⟨e, he⟩ | ⟨os, hos, hmap, hwalk⟩
    · rw [he]
      exact Or.inl ⟨e, rfl⟩
    · have hstops : p.stops m = p.steps.zip os := by simp only [stops, hos]
      have hstored : ∀ x ∈ p.steps.zip os, x.1.isStored = true := fun x hx =>
        hp.stored x.1 (List.of_mem_zip hx).1
      obtain ⟨r, h', hr, hout⟩ := writeBack_outcome (p.steps.zip os) hstored
        (null_of_isStatic hp hmap hwalk) value m.heap
      simp only [hos, hr]
      rw [← hstops] at hmap hwalk hout
      cases hout with
      | failed e => exact Or.inl ⟨e, rfl⟩
      | replaced hw =>
        simp only [not_static_of_rebuilt hwalk hw]
        exact Or.inr ⟨_, rfl, hmap, hwalk, .root hw⟩
      | stored hxs hw hq hwrite => exact Or.inr ⟨_, rfl, hmap, hwalk, .heap hxs hw hq hwrite⟩

theorem place?_of_rebuilt {xs : List Stop} {v w : Value} (hw : Rebuilt v xs w) :
    ∀ x ∈ xs, x.place? = none := by
  induction hw with
  | nil =>
    intro x hx
    cases hx
  | cons hq hsuits hrest ih =>
    intro x hx
    rcases List.mem_cons.mp hx with rfl | hx
    · exact hq
    · exact ih x hx

theorem places_of_rebuilt {xs : List Stop} {v w : Value} (hw : Rebuilt v xs w) :
    xs.filterMap Stop.place? = [] :=
  List.filterMap_eq_nil_iff.mpr (place?_of_rebuilt hw)

/-- The structs behind the last place are those that a write copies. -/
theorem takeWhile_of_rebuilt {xs : List Stop} {v w : Value} (hw : Rebuilt v xs w) (ys : List Stop)
    (hys : ∀ y ∈ ys.getLast?, y.place?.isSome = true) :
    ((ys ++ xs).reverse.takeWhile fun x => x.place?.isNone).reverse = xs := by
  have hall : ∀ x ∈ xs.reverse, x.place?.isNone = true := fun x hx => by
    rw [place?_of_rebuilt hw x (List.mem_reverse.mp hx)]
    rfl
  rw [List.reverse_append, List.takeWhile_append_of_pos hall]
  -- Behind the structs, seen from the end, there is a step with a place.
  have hrest : (ys.reverse.takeWhile fun x => x.place?.isNone) = [] := by
    rw [← List.head?_reverse] at hys
    cases hr : ys.reverse with
    | nil => rfl
    | cons y rest =>
      have hy := hys y (by rw [hr]; rfl)
      rw [List.takeWhile_cons_of_neg]
      simpa [Option.isSome_iff_ne_none] using hy
  rw [hrest, List.append_nil, List.reverse_reverse]

/-- In the content of a place a write changes only the field that the steps behind it lead to. -/
theorem rebuilt_agreeOutside {xs : List Stop} {v w u : Value} {h : Heap} (hwalk : Walk h u xs)
    (hw : Rebuilt v xs w) :
    Value.AgreeOutside (xs.map fun x => x.1.text) (some u) (some w) ∧
      w.nested? (xs.map fun x => x.1.text) = some v := by
  induction hw generalizing u with
  | nil => cases hwalk
  | @cons s ty fields rest w hq hsuits hrest ih =>
    have hother (other : String) (hne : other ≠ s.text) :
        Assoc.find? other (Assoc.put s.text w fields) = Assoc.find? other fields := by
      rw [Assoc.find?_put, if_neg]
      exact fun he => hne (eq_of_beq he).symm
    have hself : Assoc.find? s.text (Assoc.put s.text w fields) = some w := by
      rw [Assoc.find?_put, if_pos BEq.rfl]
    cases hwalk with
    | last =>
      cases hrest
      exact ⟨⟨rfl, hother, trivial⟩, by simp [Value.nested?, hself]⟩
    | @step _ _ next _ _ hnext hwalk =>
      obtain ⟨hagree, hnested⟩ := ih hwalk
      have hfound : Assoc.find? s.text fields = some next := by
        simpa only [found?, hq] using hnext
      refine ⟨⟨rfl, hother, ?_⟩, ?_⟩
      · rw [hself, hfound]
        exact hagree
      · simpa only [List.map_cons, Value.nested?, hself, Option.bind_some] using hnested

theorem walk_suffix {h : Heap} {front inner : List Stop} {x : Stop} {u : Value}
    (hwalk : Walk h u (front ++ x :: inner)) : Walk h x.2 (x :: inner) := by
  induction front generalizing u with
  | nil =>
    cases hwalk with
    | last => exact .last _ _
    | step hsuits hnext hrest => exact .step hsuits hnext hrest
  | cons y front ih =>
    generalize hxs : front ++ x :: inner = xs at ih
    rw [List.cons_append, hxs] at hwalk
    cases hwalk with
    | last => simp at hxs
    | step hsuits hnext hrest => exact ih hrest

theorem target_of_stored {p : CompiledPath} {m : Memory} {front inner : List Stop} {s : PathStep}
    {o value w : Value} {q : Place} (hstops : p.stops m = front ++ (s, o) :: inner)
    (hw : Rebuilt value inner w) (hq : s.place? o = some q) :
    p.target m = q ∧ p.passed m = front.filterMap Stop.place? := by
  have hplaces : p.places m = front.filterMap Stop.place? ++ [q] := by
    simp only [places, hstops, List.filterMap_append, List.filterMap_cons, places_of_rebuilt hw]
    simp [Stop.place?, hq]
  constructor
  · simp [target, hplaces]
  · simp [passed, hplaces]

/-- What a write does, in terms of the path's target. -/
theorem store_of_assigned {p : CompiledPath} {value : Value} {m m' : Memory}
    (hwalk : Walk m.heap (p.start m.root) (p.stops m)) (ha : p.Assigned value m m') :
    ∃ new, m' = m.store new (p.target m) ∧
      Value.AgreeOutside (p.nested m) (m.content? (p.target m)) (some new) ∧
      new.nested? (p.nested m) = some value := by
  cases ha with
  | @root w hw =>
    have htarget : p.target m = .root := by simp [target, places, places_of_rebuilt hw]
    have hnested : p.nested m = (p.stops m).map fun x => x.1.text := by
      have h := takeWhile_of_rebuilt hw [] (by simp)
      simp only [List.nil_append] at h
      simp only [nested, h]
    have hstart : p.start m.root = m.root := by
      simp [start, not_static_of_rebuilt hwalk hw]
    rw [htarget, hnested]
    rw [hstart] at hwalk
    exact ⟨w, rfl, rebuilt_agreeOutside hwalk hw⟩
  | @heap front inner s o w r q hstops hw hq hwrite =>
    obtain ⟨htarget, -⟩ := target_of_stored hstops hw hq
    have hnested : p.nested m = inner.map fun x => x.1.text := by
      have h := takeWhile_of_rebuilt hw (front ++ [(s, o)]) (by simp [Stop.place?, hq])
      rw [List.append_assoc, List.singleton_append] at h
      simp only [nested, hstops, h]
    have hroot := ne_root_of_place? hq
    rw [htarget, hnested, Memory.content?_of_ne_root m hroot]
    rw [hstops] at hwalk
    refine ⟨w, (Memory.store_of_ne_root m w hroot).symm, ?_⟩
    cases walk_suffix hwalk with
    | last =>
      cases hw
      exact ⟨trivial, rfl⟩
    | @step _ _ next _ _ hnext hrest =>
      have hcontent : m.heap.content? q = some next := by simpa only [found?, hq] using hnext
      rw [hcontent]
      exact rebuilt_agreeOutside hrest hw

theorem isWritable_of_checkWritable {ts : TypeSystem} {p : CompiledPath}
    (hw : p.checkWritable ts = .ok ()) : ∃ s, p.steps.getLast? = some s ∧ s.isWritable = true := by
  unfold checkWritable at hw
  split at hw
  next => cases hw
  next last hlast =>
    refine ⟨last, hlast, ?_⟩
    split at hw
    next => cases hw
    next hlw => simpa using hlw

theorem ne_nil_of_checkWritable {ts : TypeSystem} {p : CompiledPath}
    (hw : p.checkWritable ts = .ok ()) : p.steps ≠ [] := by
  obtain ⟨s, hs, -⟩ := isWritable_of_checkWritable hw
  rintro hnil
  rw [hnil] at hs
  cases hs

namespace Sample

/-- The path `position.x` from an actor on, whose position is a struct. -/
def path : CompiledPath where
  root := .plain "Actor"
  text := "position.x"
  isStatic := false
  steps := [.member (.field ⟨"position", .plain "Vector", false, .record⟩) false,
    .member (.field ⟨"x", .int, false, .record⟩) false]

def position (x : Int64) : Value := .struct (.plain "Vector") [("x", .int x), ("y", .int 2)]

/-- An actor in the heap with its position. -/
def memory (x : Int64) : Memory where
  root := .object 0
  heap := ⟨#[⟨.plain "Actor", [("position", position x)]⟩], #[], #[]⟩

def types : TypeSystem := Registry.builtin.types 8

theorem path_isStored : path.IsStored where
  stored := by decide
  first := by decide
  later := by decide

theorem path_checkWritable : path.checkWritable types = .ok () := rfl

end Sample

/-- A write that fails changes nothing. One that succeeds changes the content of one place, and in
that content only the nested field that the path leads to, which then holds the value. -/
theorem assign_changes_one_place (ts : TypeSystem) {p : CompiledPath} (hp : p.IsStored)
    (hw : p.checkWritable ts = .ok ()) (value : Value) (m m' : Memory) :
    (∀ e, p.assign ts value m = (.error e, m') → m' = m) ∧
      (p.assign ts value m = (.ok (), m') →
        ∃ new, m' = m.store new (p.target m) ∧
          (∀ q, q ≠ p.target m → m'.content? q = m.content? q) ∧
          Value.AgreeOutside (p.nested m) (m.content? (p.target m)) (some new) ∧
          new.nested? (p.nested m) = some value) := by
  rcases assign_cases ts hp (ne_nil_of_checkWritable hw) value m with
    ⟨e, he⟩ | ⟨m₁, hok, -, hwalk, ha⟩
  · rw [he]
    refine ⟨fun e' heq => ?_, fun heq => ?_⟩ <;> cases heq
    rfl
  · rw [hok]
    refine ⟨fun e heq => ?_, fun heq => ?_⟩ <;> cases heq
    obtain ⟨new, rfl, hagree, hnested⟩ := store_of_assigned hwalk ha
    exact ⟨new, rfl, fun q hq => Memory.content?_store_of_ne new hq.symm, hagree, hnested⟩

theorem assign_changes_position_x :
    ∃ new, Sample.memory 7 = (Sample.memory 1).store new (.field 0 "position") ∧
      new.nested? ["x"] = some (.int 7) := by
  obtain ⟨new, hm, -, -, hnested⟩ := (assign_changes_one_place Sample.types Sample.path_isStored
    Sample.path_checkWritable (.int 7) (Sample.memory 1) (Sample.memory 7)).2 rfl
  exact ⟨new, hm, hnested⟩

/-! ### Reading what was written -/

/-- A memory in which nothing dangles, neither in the heap nor in the root nor in a static step. -/
structure Grounded (p : CompiledPath) (m : Memory) : Prop where
  heap : m.heap.Closed
  root : m.root.Live m.heap
  slots : ∀ s ∈ p.steps, s.SlotExists m.heap

theorem live_of_walk {h : Heap} (hc : h.Closed) {u : Value} (hu : u.Live h) {xs : List Stop}
    (hwalk : Walk h u xs) : ∀ x ∈ xs, x.2.Live h := by
  induction hwalk with
  | last s v =>
    intro x hx
    rw [List.mem_singleton] at hx
    subst hx
    exact hu
  | step hsuits hnext hrest ih =>
    intro x hx
    rcases List.mem_cons.mp hx with rfl | hx
    · exact hu
    · exact ih (live_found? hc hu hnext) x hx

theorem Grounded.start {p : CompiledPath} {m : Memory} (hm : p.Grounded m) :
    (p.start m.root).Live m.heap := by
  unfold CompiledPath.start
  split
  next => exact trivial
  next => exact hm.root

theorem readAll_cons (s : PathStep) (steps : List PathStep) (v : Value) :
    readAll (s :: steps) v = s.read v >>= readAll steps := List.foldlM_cons

/-- Reading goes from struct to struct along the copies that a write made. -/
theorem readAll_rebuilt {xs : List Stop} (hs : ∀ x ∈ xs, x.1.isStored = true) {v w : Value}
    (hw : Rebuilt v xs w) (h : Heap) : readAll (xs.map Prod.fst) w h = (.ok v, h) := by
  induction hw with
  | nil => rfl
  | @cons s ty fields rest w hq hsuits hrest ih =>
    have hfound : s.found? (.struct ty (Assoc.put s.text w fields)) h = some w := by
      have hq' := (place?_struct (Assoc.put s.text w fields)).trans hq
      simp only [found?, hq', Assoc.find?_put, BEq.rfl, if_true]
    have hread : s.read (.struct ty (Assoc.put s.text w fields)) h = (.ok w, h) :=
      (read_eq_ok_iff (hs (s, _) List.mem_cons_self)).mpr ⟨rfl, suits_struct _ hsuits, hfound⟩
    rw [List.map_cons, readAll_cons, Action.bind_ok hread]
    exact ih fun x hx => hs x (List.mem_cons_of_mem _ hx)

/-- The steps before the one whose place changed read what they did before. -/
theorem readAll_front {h : Heap} {q : Place} {front rest : List Stop} {x : Stop} {u : Value}
    (hs : ∀ y ∈ front, y.1.isStored = true) (hne : ∀ y ∈ front, y.place? ≠ some q)
    (hwalk : Walk h u (front ++ x :: rest)) (w : Value) :
    readAll ((front ++ x :: rest).map Prod.fst) u (h.store w q) =
      readAll ((x :: rest).map Prod.fst) x.2 (h.store w q) := by
  induction front generalizing u with
  | nil =>
    cases hwalk with
    | last => rfl
    | step => rfl
  | cons y front ih =>
    generalize hxs : front ++ x :: rest = xs at ih
    rw [List.cons_append, hxs] at hwalk
    cases hwalk with
    | last => simp at hxs
    | @step s _ next _ hsuits hnext hrest =>
      have hfound : s.found? u (h.store w q) = some next := by
        rw [found?_store_of_ne w (hne (s, u) List.mem_cons_self)]
        exact hnext
      have hread : s.read u (h.store w q) = (.ok next, h.store w q) :=
        (read_eq_ok_iff (hs (s, u) List.mem_cons_self)).mpr ⟨rfl, hsuits, hfound⟩
      rw [List.cons_append, hxs, List.map_cons, readAll_cons, Action.bind_ok hread]
      exact ih (fun z hz => hs z (List.mem_cons_of_mem _ hz))
        (fun z hz => hne z (List.mem_cons_of_mem _ hz)) hrest

/-- The step that stored a value reads it again. -/
theorem read_of_write {h : Heap} (hc : h.Closed) {u : Value} (hu : u.Live h) {s : PathStep}
    (hs : s.isStored = true) (hslot : s.SlotExists h) {o w r : Value} {q : Place}
    {front inner : List Stop} (hwalk : Walk h u (front ++ (s, o) :: inner))
    (hlast : inner = [] → s.isWritable = true) (hq : s.place? o = some q)
    (hwrite : s.write o w h = (.ok r, h.store w q)) :
    s.read o (h.store w q) = (.ok w, h.store w q) := by
  have hlive : o.Live h := live_of_walk hc hu hwalk (s, o) (by simp)
  have hholds : h.Holds q := by
    generalize hh : h.store w q = h' at hwrite
    cases writes_of_write hs hwrite with
    | stored q' r hq' hholds =>
      rw [hq] at hq'
      cases hq'
      exact hholds hlive hslot
    | copied ty fields hq' hsuits ho =>
      rw [hq] at hq'
      cases hq'
  have hsuits : s.Suits o := by
    cases walk_suffix hwalk with
    | last => exact suits_of_write (hlast rfl) hwrite
    | step hsuits hnext hrest => exact hsuits
  exact (read_eq_ok_iff hs).mpr ⟨rfl, hsuits, found?_store_self w hq hholds⟩

/-- What a path has written it reads again, unless an earlier step reads from the place that the
write changed. -/
theorem get_assign (ts : TypeSystem) {p : CompiledPath} (hp : p.IsStored)
    (hw : p.checkWritable ts = .ok ()) {value : Value} {m m' : Memory} (hm : p.Grounded m)
    (hset : p.assign ts value m = (.ok (), m')) (hfresh : p.target m ∉ p.passed m) :
    p.get m'.root m'.heap = (.ok value, m'.heap) := by
  obtain ⟨last, hlast, hwritable⟩ := isWritable_of_checkWritable hw
  rcases assign_cases ts hp (ne_nil_of_checkWritable hw) value m with
    ⟨e, he⟩ | ⟨m₁, hok, hmap, hwalk, ha⟩
  · rw [he] at hset
    cases hset
  rw [hok] at hset
  cases hset
  have hstored : ∀ x ∈ p.stops m, x.1.isStored = true := fun x hx =>
    hp.stored x.1 (hmap ▸ List.mem_map_of_mem hx)
  unfold get
  cases ha with
  | root hrebuilt =>
    rw [start, not_static_of_rebuilt hwalk hrebuilt, ← hmap]
    exact readAll_rebuilt hstored hrebuilt m.heap
  | @heap front inner s o w r q hstops hrebuilt hq hwrite =>
    obtain ⟨htarget, hpassed⟩ := target_of_stored hstops hrebuilt hq
    rw [htarget, hpassed] at hfresh
    rw [hstops] at hwalk hstored
    have hne : ∀ y ∈ front, y.place? ≠ some q := fun y hy hyq =>
      hfresh (List.mem_filterMap.mpr ⟨y, hy, hyq⟩)
    have hs : s.isStored = true := hstored (s, o) (by simp)
    have hmem : s ∈ p.steps := by
      rw [← hmap, hstops]
      simp
    have hend : inner = [] → s.isWritable = true := by
      rintro rfl
      rw [← hmap, hstops, List.map_append, List.map_cons, List.map_nil,
        List.getLast?_concat] at hlast
      cases hlast
      exact hwritable
    -- The path reads the owners it did before, up to the step that reads what it stored.
    have hread := read_of_write hm.heap hm.start hs (hm.slots s hmem) hwalk hend hq hwrite
    rw [← hmap, hstops]
    change readAll _ (p.start m.root) (m.heap.store w q) = _
    rw [readAll_front (fun y hy => hstored y (by simp [hy])) hne hwalk w, List.map_cons,
      readAll_cons, Action.bind_ok hread]
    exact readAll_rebuilt (fun x hx => hstored x (by simp [hx])) hrebuilt _

theorem get_assign_position_x :
    Sample.path.get (Sample.memory 7).root (Sample.memory 7).heap =
      (.ok (.int 7), (Sample.memory 7).heap) := by
  have hclosed : (Sample.memory 1).heap.Closed := by
    refine ⟨fun id => ?_, fun id v hv => ?_, fun id => trivial⟩
    · cases id with
      | zero => exact ⟨⟨trivial, trivial, trivial⟩, trivial⟩
      | succ id => exact trivial
    · cases hv
  have hgrounded : Sample.path.Grounded (Sample.memory 1) := by
    refine ⟨hclosed, Nat.zero_lt_one, fun s hs => ?_⟩
    simp only [Sample.path, List.mem_cons, List.not_mem_nil, or_false] at hs
    rcases hs with rfl | rfl <;>
      · intro id hid
        cases hid
  exact get_assign Sample.types Sample.path_isStored Sample.path_checkWritable hgrounded rfl
    (by decide)

end CompiledPath

end Introspect

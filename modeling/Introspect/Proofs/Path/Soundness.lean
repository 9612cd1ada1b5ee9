import Introspect.Proofs.Path.Composition
import Introspect.Proofs.Typing

/-!
Type soundness of paths of fields and elements. In a well-typed heap a path that starts at a value
of its root type only meets values of the types that its steps were resolved with, though those were
looked up on a supertype of what is there. A write keeps the heap well typed, with the one check of
the value that it writes.
-/

namespace Introspect

open PathStep Stop
open TypeSystem (IsSequence)

variable {ts : TypeSystem} {h : Heap} {t u : Ty} {owner v w : Value} {s : PathStep}

/-! ### Fields -/

namespace TypeSystem

/-- A field that is found in a type is a record field of a supertype of whatever is seen as that
type. -/
theorem exists_recordField (hts : ts.HasBuiltins) (hends : (ts.supertypes? u).isSome = true)
    (htu : ts.isAssignable t u = true) {name : String} {f : FieldInfo}
    (hf : .field f ∈ ts.findMembers t name (.of false)) :
    ∃ s ∈ ts.supertypes u, ∃ g ∈ ts.recordFieldsOf s, g.name = f.name ∧ f.ty.Same g.ty := by
  obtain ⟨n, args, d, declared, hchain, hd, hdeclared, hstatic, rfl⟩ :=
    CompiledPath.exists_declared_of_mem_findMembers hf
  obtain ⟨sups, hsups⟩ := Option.isSome_iff_exists.mp hends
  have ho : t.isObject = false := by
    cases ho : t.isObject with
    | false => rfl
    | true =>
      -- `object` itself has no fields.
      rw [Ty.eq_object_of_isObject ho, hts.baseChain_object, List.mem_singleton] at hchain
      cases hchain
      rw [hts.find?_object] at hd
      cases hd
      cases hdeclared
  have howner := contains_of_mem_baseChain hts hsups (contains_of_isAssignable hsups htu ho) _
    hchain
  obtain ⟨s, hs, hsame⟩ := List.contains_iff_exists_mem_beq.mp howner
  have hmem : declared.instantiate d.name args ∈ ts.recordFieldsOf (.named n args) :=
    mem_recordFieldsOf.mpr ⟨n, args, d, rfl, hd, declared,
      TypeDef.mem_recordFields.mpr ⟨hdeclared, hstatic⟩, rfl⟩
  obtain ⟨g, hg, hname, hty⟩ := recordFieldsOf_congr hsame hmem
  rw [supertypes, hsups, Option.getD_some]
  exact ⟨s, hs, g, hg, hname, hty⟩

variable {fields : Fields} {name : String} {f : FieldInfo}

/-- What a record holds in a field conforms to the type that the field was found with. -/
theorem RecordTyped.conforms_field (hts : ts.HasBuiltins) (hfields : ts.RecordTyped h u fields)
    (htu : ts.isAssignable t u = true) (hf : .field f ∈ ts.findMembers t name (.of false))
    (hv : Assoc.find? f.name fields = some v) : ts.Conforms h f.ty v := by
  obtain ⟨s, hs, g, hg, hname, hty⟩ := exists_recordField hts hfields.ends htu hf
  rw [← hname] at hv
  exact (conforms_congr hty).mpr (hfields.conforms s hs g hg v hv)

/-- A value that conforms to the type that a field was found with may be put there. -/
theorem RecordTyped.put_field (hts : ts.HasBuiltins) (hagree : ts.FieldsAgree)
    (hfields : ts.RecordTyped h u fields) (htu : ts.isAssignable t u = true)
    (hf : .field f ∈ ts.findMembers t name (.of false)) (hv : ts.Conforms h f.ty v) :
    ts.RecordTyped h u (Assoc.put f.name v fields) := by
  obtain ⟨s, hs, g, hg, hname, hty⟩ := exists_recordField hts hfields.ends htu hf
  rw [← hname]
  exact hfields.put hagree hs hg ((conforms_congr hty).mp hv)

end TypeSystem

/-! ### Elements -/

/-- An item of a sequence is of the type that the indexing promises, whatever the sequence is seen
as. -/
theorem Value.HasTy.item (hts : ts.HasBuiltins) (hh : h.WellTyped ts) {elem? : Option Ty}
    (hseq : IsSequence elem? u) (htu : ts.isAssignable t u = true) {kind : IndexKind}
    (hkind : ts.indexKind? t = some kind) (hv : v.HasTy ts h (elem?.getD .object)) :
    v.HasTy ts h (kind.elem?.getD .object) := by
  cases ha : kind.elem? with
  | none => exact ⟨hv.wellTyped, hh.conforms_object hts hv.wellTyped⟩
  | some a =>
    obtain ⟨elem, helem, hsame⟩ := TypeSystem.elem_of_isAssignable hts hseq htu hkind ha
    rw [helem] at hv
    exact hv.congr (BEq.symm hsame)

namespace PathStep

theorem hasTy_element (hts : ts.HasBuiltins) (hh : h.WellTyped ts) (ho : owner.HasTy ts h t)
    {id : SequenceId} {index : Nat} (howner : owner = .array id ∨ owner = .list id)
    (hv : h.content? (.item id index) = some v) {kind : IndexKind}
    (hkind : ts.indexKind? t = some kind) : v.HasTy ts h (kind.elem?.getD .object) := by
  have hitem := hh.items id v (List.mem_of_getElem? hv)
  rcases howner with rfl | rfl
  · have hseq : IsSequence (some ((h.sequence id).elem.getD .object)) ((Value.array id).typeOf h) :=
      .array rfl
    exact hitem.item hts hh hseq (ho.isAssignable rfl) hkind
  · have hseq : IsSequence (h.sequence id).elem ((Value.list id).typeOf h) := by
      simp only [Value.typeOf]
      split
      next elem helem => exact .list helem
      next => exact .arrayList
    exact hitem.item hts hh hseq (ho.isAssignable rfl) hkind

theorem storage_eq_record {f : FieldInfo} {isStatic : Bool}
    (hs : (member (.field f) isStatic).isStored = true) (hi : isStatic = false) :
    f.storage = .record := by
  rw [isStatic_eq hs] at hi
  simpa using hi

/-- What a step finds in a value of the type that it was resolved with is of the step's type. -/
theorem hasTy_found? (hts : ts.HasBuiltins) (hh : h.WellTyped ts) (hs : s.isStored = true)
    (hi : s.isStatic = false) (hin : s.FoundIn ts t) (ho : owner.HasTy ts h t)
    (hsuits : s.Suits owner) (hv : s.found? owner h = some v) : v.HasTy ts h s.resultTy := by
  cases s with
  | member target isStatic =>
    cases target with
    | field f =>
      obtain rfl : isStatic = false := hi
      obtain ⟨name, hin⟩ := hin
      have hf := storage_eq_record hs rfl
      -- The fields are in the struct itself, or in the record of the object.
      cases owner with
      | struct ty fields =>
        simp only [found?, place?, hf] at hv
        have hfields := ho.wellTyped
        have hassignable := ho.isAssignable rfl
        exact ⟨Value.wellTyped_of_find? hfields.2 hv,
          hfields.1.conforms_field hts hassignable hin hv⟩
      | object id =>
        simp only [found?, place?, hf, Heap.content?] at hv
        obtain ⟨hfields, hvalues⟩ := hh.records id (Heap.lt_size_of_field hv)
        have hassignable := ho.isAssignable rfl
        exact ⟨Value.wellTyped_of_find? hvalues hv,
          hfields.conforms_field hts hassignable hin hv⟩
      | _ =>
        simp only [found?, place?, hf] at hv
        cases hv
    | property p => cases hs
    | method m args => cases hs
  | _ =>
    cases owner with
    | array id => exact hasTy_element hts hh ho (.inl rfl) hv hin
    | list id => exact hasTy_element hts hh ho (.inr rfl) hv hin
    | _ => cases hsuits

/-- A value of the step's type may be stored where the step goes. An element is only stored anew
when a struct in it has changed, so it has the type that it had. -/
theorem wellTyped_store (hts : ts.HasBuiltins) (hagree : ts.FieldsAgree) (hh : h.WellTyped ts)
    (hs : s.isStored = true) (hi : s.isStatic = false) (hin : s.FoundIn ts t)
    (ho : owner.HasTy ts h t) {q : Place} (hq : s.place? owner = some q)
    (hw : w.HasTy ts h s.resultTy)
    (hold : s.isWritable = true ∨ ∃ old, s.found? owner h = some old ∧ old.SameTy h w) :
    (h.store w q).WellTyped ts := by
  have helement {id : SequenceId} {index : Nat} {old : Value}
      (hfound : h.content? (.item id index) = some old) (hsame : old.SameTy h w) :
      (h.store w (.item id index)).WellTyped ts := by
    have hitem := hh.items id old (List.mem_of_getElem? hfound)
    exact hh.store_item (hitem.of_sameTy hsame hw.wellTyped)
  cases s with
  | member target isStatic =>
    cases target with
    | field f =>
      obtain rfl : isStatic = false := hi
      obtain ⟨name, hin⟩ := hin
      have hf := storage_eq_record hs rfl
      cases owner with
      | object id =>
        simp only [place?, hf, Option.some.injEq] at hq
        rw [← hq]
        apply hh.store_field hw.wellTyped
        intro hid
        have hassignable := ho.isAssignable rfl
        exact (hh.records id hid).1.put_field hts hagree hassignable hin hw.conforms
      | _ =>
        simp only [place?, hf] at hq
        cases hq
    | property p => cases hs
    | method m args => cases hs
  | _ =>
    -- The static type of an element may be wider than that of the items, so it is of no use here.
    rcases hold with hwritable | ⟨old, hfound, hsame⟩
    · cases hwritable
    · cases owner with
      | array id =>
        cases hq
        exact helement hfound hsame
      | list id =>
        cases hq
        exact helement hfound hsame
      | _ => cases hq

end PathStep

/-! ### Reading -/

namespace CompiledPath

/-- The steps of an instance path that goes to fields and elements. -/
def InstanceSteps (steps : List PathStep) : Prop :=
  ∀ s ∈ steps, s.isStored = true ∧ s.isStatic = false

theorem instanceSteps_of_isStored {p : CompiledPath} (hp : p.IsStored)
    (hi : p.isStatic = false) : InstanceSteps p.steps := by
  intro s hs
  refine ⟨hp.stored s hs, ?_⟩
  have hfirst := hp.first
  have hlater := hp.later
  cases hsteps : p.steps with
  | nil =>
    rw [hsteps] at hs
    cases hs
  | cons first later =>
    rw [hsteps] at hs hfirst hlater
    rcases List.mem_cons.mp hs with rfl | hs
    · exact (hfirst s rfl).trans hi
    · exact hlater s hs

/-- A read that succeeds leaves the heap alone and gives a value of the type where the path ends. -/
theorem hasTy_of_readAll (hts : ts.HasBuiltins) (hh : h.WellTyped ts) {steps : List PathStep}
    (hs : InstanceSteps steps) (htyped : TypedFrom ts t steps) (hu : owner.HasTy ts h t)
    {h' : Heap} (hread : readAll steps owner h = (.ok v, h')) :
    h' = h ∧ v.HasTy ts h (endTy t steps) := by
  induction steps generalizing owner t with
  | nil =>
    cases hread
    exact ⟨rfl, hu⟩
  | cons s rest ih =>
    obtain ⟨hin, htyped⟩ := htyped
    obtain ⟨hstored, hi⟩ := hs s List.mem_cons_self
    rw [readAll_cons] at hread
    rcases read_cases hstored owner h with ⟨e, he⟩ | ⟨next, hr, hsuits, hnext⟩
    · rw [Action.bind_error he] at hread
      cases hread
    · rw [Action.bind_ok hr] at hread
      rw [endTy_cons]
      exact ih (fun s' hs' => hs s' (List.mem_cons_of_mem _ hs')) htyped
        (hasTy_found? hts hh hstored hi hin hu hsuits hnext) hread

/-- The owners that a walk meets are of the types where the steps before them end. -/
theorem hasTy_of_walk (hts : ts.HasBuiltins) (hh : h.WellTyped ts) {front inner : List Stop}
    {x : Stop} (hwalk : Walk h owner (front ++ x :: inner))
    (hs : InstanceSteps ((front ++ x :: inner).map Prod.fst))
    (htyped : TypedFrom ts t ((front ++ x :: inner).map Prod.fst)) (hu : owner.HasTy ts h t) :
    x.2.HasTy ts h (endTy t (front.map Prod.fst)) := by
  induction front generalizing owner t with
  | nil =>
    cases hwalk with
    | last => exact hu
    | step => exact hu
  | cons y front ih =>
    generalize hxs : front ++ x :: inner = xs at ih
    rw [List.cons_append, hxs] at hwalk hs htyped
    cases hwalk with
    | last => simp at hxs
    | @step s _ next _ hsuits hnext hrest =>
      obtain ⟨hin, htyped⟩ := htyped
      obtain ⟨hstored, hi⟩ := hs s List.mem_cons_self
      rw [List.map_cons, endTy_cons]
      exact ih hrest (fun s' hs' => hs s' (List.mem_cons_of_mem _ hs')) htyped
        (hasTy_found? hts hh hstored hi hin hu hsuits hnext)

/-! ### Writing -/

/-- A struct that is copied with a new value in one of its fields has the type that it had. -/
theorem wellTyped_of_rebuilt (hts : ts.HasBuiltins) (hagree : ts.FieldsAgree) (hh : h.WellTyped ts)
    {xs : List Stop} (hwalk : Walk h owner xs) (hw : Rebuilt v xs w)
    (hs : InstanceSteps (xs.map Prod.fst)) (htyped : TypedFrom ts t (xs.map Prod.fst))
    (hu : owner.HasTy ts h t) (hv : v.HasTy ts h (endTy t (xs.map Prod.fst))) :
    w.WellTyped ts h ∧ owner.SameTy h w := by
  induction hw generalizing owner t with
  | nil => cases hwalk
  | @cons s ty fields rest w hq hsuits hrest ih =>
    obtain ⟨hin, htyped⟩ := htyped
    obtain ⟨hstored, hi⟩ := hs s List.mem_cons_self
    rw [List.map_cons, endTy_cons] at hv
    -- What goes into the field is the value itself, or the copy of the struct that was there.
    obtain ⟨rfl, hinner⟩ : owner = .struct ty fields ∧ w.HasTy ts h s.resultTy := by
      cases hwalk with
      | last =>
        cases hrest
        exact ⟨rfl, hv⟩
      | @step _ _ next _ hsuits' hnext hwalk =>
        have hnextTy := hasTy_found? hts hh hstored hi hin hu hsuits' hnext
        obtain ⟨hwTy, hsame⟩ := ih hwalk (fun s' hs' => hs s' (List.mem_cons_of_mem _ hs')) htyped
          hnextTy hv
        exact ⟨rfl, hnextTy.of_sameTy hsame hwTy⟩
    refine ⟨?_, rfl, rfl, rfl⟩
    cases s with
    | member target isStatic =>
      cases target with
      | field f =>
        obtain rfl : isStatic = false := hi
        obtain ⟨name, hin⟩ := hin
        obtain ⟨hfields, hvalues⟩ := hu.wellTyped
        exact ⟨hfields.put_field hts hagree (hu.isAssignable rfl) hin hinner.conforms,
          Value.fieldsWellTyped_put hvalues hinner.wellTyped⟩
      | property p => cases hstored
      | method m args => cases hstored
    | _ => cases hsuits

theorem fits_of_assign {p : CompiledPath} {m m' : Memory}
    (hset : p.assign ts v m = (.ok (), m')) : p.fits ts m.heap v = true := by
  cases hfits : p.fits ts m.heap v with
  | true => rfl
  | false =>
    rw [assign, set_of_unfit hfits] at hset
    cases hset

theorem conforms_of_fits {p : CompiledPath} (hfits : p.fits ts h v = true) :
    ts.Conforms h p.resultTy v := by
  unfold fits at hfits
  unfold TypeSystem.Conforms
  split at hfits
  next hn => simpa [hn] using hfits
  next hn => simpa [hn] using hfits

/-- What a write that succeeds leaves is well typed, and the root keeps its type. -/
theorem wellTyped_of_assigned (hts : ts.HasBuiltins) (hagree : ts.FieldsAgree) {p : CompiledPath}
    {m m' : Memory} (hs : InstanceSteps p.steps) (hi : p.isStatic = false)
    (htyped : TypedFrom ts p.root p.steps) (hw : p.checkWritable ts = .ok ())
    (hh : m.heap.WellTyped ts) (hroot : m.root.HasTy ts m.heap p.root)
    (hv : v.HasTy ts m.heap p.resultTy) (hmap : (p.stops m).map Prod.fst = p.steps)
    (hwalk : Walk m.heap (p.start m.root) (p.stops m)) (ha : p.Assigned v m m') :
    m'.heap.WellTyped ts ∧ m'.root.HasTy ts m'.heap p.root := by
  have hstart : p.start m.root = m.root := by
    rw [start, hi, if_neg Bool.false_ne_true]
  rw [hstart] at hwalk
  unfold resultTy at hv
  rw [← hmap] at hs htyped hv
  cases ha with
  | root hrebuilt =>
    obtain ⟨hwTy, hsame⟩ := wellTyped_of_rebuilt hts hagree hh hwalk hrebuilt hs htyped hroot hv
    exact ⟨hh, hroot.of_sameTy hsame hwTy⟩
  | @heap front inner s o w r q hstops hrebuilt hq hwrite =>
    have hlast := isWritable_of_checkWritable hw
    rw [← hmap, hstops] at hlast
    rw [hstops] at hwalk hs htyped hv
    have ho := hasTy_of_walk hts hh hwalk hs htyped hroot
    have hwalk := walk_suffix hwalk
    rw [List.map_append, List.map_cons] at hs htyped hv
    obtain ⟨-, hin, htyped⟩ := typedFrom_append.mp htyped
    rw [endTy_append, endTy_cons] at hv
    obtain ⟨hstored, hi⟩ := hs s (List.mem_append_right _ List.mem_cons_self)
    -- The step is the last one, which is a field, or a changed copy goes where the struct was.
    have hinner : w.HasTy ts m.heap s.resultTy ∧
        (s.isWritable = true ∨ ∃ old, s.found? o m.heap = some old ∧ old.SameTy m.heap w) := by
      cases hwalk with
      | last =>
        cases hrebuilt
        obtain ⟨last, hlast, hwritable⟩ := hlast
        rw [List.map_append, List.map_cons, List.map_nil, List.getLast?_concat] at hlast
        cases hlast
        exact ⟨hv, .inl hwritable⟩
      | @step _ _ next _ hsuits hnext hrest =>
        have hnextTy := hasTy_found? hts hh hstored hi hin ho hsuits hnext
        obtain ⟨hwTy, hsame⟩ := wellTyped_of_rebuilt hts hagree hh hrest hrebuilt
          (fun s' hs' => hs s' (List.mem_append_right _ (List.mem_cons_of_mem _ hs'))) htyped
          hnextTy hv
        exact ⟨hnextTy.of_sameTy hsame hwTy, .inr ⟨next, hnext, hsame⟩⟩
    exact ⟨wellTyped_store hts hagree hh hstored hi hin ho hq hinner.1 hinner.2, hroot.store⟩

namespace Sample

/-- Actors are entities, which have a position, and have other entities as friends. -/
def worldTypes : TypeSystem :=
  let vector : TypeDef := { TypeDef.new "Vector" .structType with
    members := [.field ⟨"x", .int, false, .record⟩] }
  let entity : TypeDef := { TypeDef.new "Entity" .classType with
    members := [.field ⟨"position", .plain "Vector", false, .record⟩] }
  let actor : TypeDef := { TypeDef.new "Actor" .classType with
    base := some (.plain "Entity")
    members := [.field ⟨"friends", .list (.plain "Entity"), false, .record⟩] }
  (((Registry.builtin.register vector).register entity).register actor).types 8

/-- An actor that is a friend of itself. -/
def world (x : Int64) : Memory where
  root := .object 0
  heap := ⟨#[⟨.plain "Actor", [("friends", .list 0),
      ("position", .struct (.plain "Vector") [("x", .int x)])]⟩],
    #[⟨some (.plain "Entity"), [.object 0]⟩], #[]⟩

/-- The path `friends[0].position.x` from an actor on. -/
def friend : CompiledPath where
  root := .plain "Actor"
  text := "friends[0].position.x"
  isStatic := false
  steps := [.member (.field ⟨"friends", .list (.plain "Entity"), false, .record⟩) false,
    .typedElement 0 (.plain "Entity"),
    .member (.field ⟨"position", .plain "Vector", false, .record⟩) false,
    .member (.field ⟨"x", .int, false, .record⟩) false]

theorem worldTypes_hasBuiltins : worldTypes.HasBuiltins :=
  TypeSystem.hasBuiltins_of_definitions rfl 8

theorem worldTypes_fieldsAgree : worldTypes.FieldsAgree :=
  TypeSystem.fieldsAgree_of_definitions 8 (by decide)

theorem world_wellTyped (x : Int64) : (world x).heap.WellTyped worldTypes := by
  let position : Value := .struct (.plain "Vector") [("x", .int x)]
  have hvector : worldTypes.RecordTyped (world x).heap (.plain "Vector") [("x", .int x)] := by
    refine ⟨rfl, rfl, rfl, fun s hs f hf v hv => ?_⟩
    have hsupertypes : worldTypes.supertypes (.plain "Vector") = [.plain "Vector", .object] := rfl
    rw [hsupertypes, List.mem_cons, List.mem_singleton] at hs
    rcases hs with rfl | rfl
    · rw [List.mem_singleton.mp hf] at hv ⊢
      cases hv
      exact (TypeSystem.conforms_iff_isAssignable rfl).mpr rfl
    · cases hf
  have hactor : worldTypes.RecordTyped (world x).heap (.plain "Actor")
      [("friends", .list 0), ("position", position)] := by
    refine ⟨rfl, rfl, rfl, fun s hs f hf v hv => ?_⟩
    have hsupertypes : worldTypes.supertypes (.plain "Actor") =
        [.plain "Actor", .plain "Entity", .object] := rfl
    rw [hsupertypes, List.mem_cons, List.mem_cons, List.mem_singleton] at hs
    rcases hs with rfl | rfl | rfl
    · rw [List.mem_singleton.mp hf] at hv ⊢
      cases hv
      exact (TypeSystem.conforms_iff_isAssignable rfl).mpr rfl
    · rw [List.mem_singleton.mp hf] at hv ⊢
      cases hv
      exact (TypeSystem.conforms_iff_isAssignable rfl).mpr rfl
    · cases hf
  refine ⟨fun id hid => ?_, fun id v hv => ?_, fun id => trivial⟩
  · obtain rfl : id = 0 := Nat.lt_one_iff.mp hid
    exact ⟨hactor, trivial, ⟨hvector, trivial, trivial⟩, trivial⟩
  · cases id with
    | zero =>
      rw [List.mem_singleton.mp hv]
      exact ⟨trivial, (TypeSystem.conforms_iff_isAssignable rfl).mpr rfl⟩
    | succ id => cases hv

end Sample

/-- Paths of fields and elements are type sound. In a well-typed heap, with a root that conforms to
the root type, what such a path reads conforms to the path's type, and whatever comes of a write
through it, the heap, the root and the value are well typed and the root conforms to its type. -/
theorem type_soundness (hts : ts.HasBuiltins) (hagree : ts.FieldsAgree) {rules : Rules} {root : Ty}
    {text : String} {p : CompiledPath} (hp : compile ts rules root text false = .ok p)
    (hdirect : ∀ s ∈ p.steps, s.isDirect = true) {m : Memory} (hheap : m.heap.WellTyped ts)
    (hroot : m.root.HasTy ts m.heap root) (hv : v.WellTyped ts m.heap) :
    (∀ w h, p.get m.root m.heap = (.ok w, h) → h = m.heap ∧ w.HasTy ts m.heap p.resultTy) ∧
      (p.checkWritable ts = .ok () → ∀ r m', p.assign ts v m = (r, m') →
        m'.heap.WellTyped ts ∧ m'.root.HasTy ts m'.heap root ∧ v.WellTyped ts m'.heap) := by
  have hstored := isStored_of_compile hp hdirect
  have htyped := typedFrom_of_compile hp
  obtain ⟨raws, steps, -, -, rfl⟩ := compile_eq_ok.mp hp
  have hs := instanceSteps_of_isStored hstored rfl
  refine ⟨fun w h hread => hasTy_of_readAll hts hheap hs htyped hroot hread, ?_⟩
  intro hw r m' hset
  rcases assign_cases ts hstored (ne_nil_of_checkWritable hw) v m with
    ⟨e, he⟩ | ⟨m₁, hok, hmap, hwalk, ha⟩
  · rw [he] at hset
    cases hset
    exact ⟨hheap, hroot, hv⟩
  · have hvTy : v.HasTy ts m.heap _ := ⟨hv, conforms_of_fits (fits_of_assign hok)⟩
    rw [hok] at hset
    cases hset
    obtain ⟨hheap', hroot'⟩ := wellTyped_of_assigned hts hagree hs rfl htyped hw hheap hroot hvTy
      hmap hwalk ha
    refine ⟨hheap', hroot', ?_⟩
    cases ha with
    | root => exact hv
    | heap => exact Value.WellTyped.store v hv

/-- An actor that is seen as an entity in a list has an integer written into its position. -/
theorem type_soundness_friend :
    compile Sample.worldTypes ⟨true⟩ (.plain "Actor") "friends[0].position.x" false =
        .ok Sample.friend ∧
      Sample.friend.get (.object 0) (Sample.world 1).heap =
        (.ok (.int 1), (Sample.world 1).heap) ∧
      (Value.int 1).HasTy Sample.worldTypes (Sample.world 1).heap Sample.friend.resultTy ∧
      Sample.friend.assign Sample.worldTypes (.int 7) (Sample.world 1) = (.ok (), Sample.world 7) ∧
      (Sample.world 7).heap.WellTyped Sample.worldTypes := by
  have hcompile : compile Sample.worldTypes ⟨true⟩ (.plain "Actor") "friends[0].position.x" false =
      .ok Sample.friend := rfl
  have hroot : (Sample.world 1).root.HasTy Sample.worldTypes (Sample.world 1).heap
      (.plain "Actor") := ⟨trivial, (TypeSystem.conforms_iff_isAssignable rfl).mpr rfl⟩
  obtain ⟨hget, hassign⟩ := type_soundness Sample.worldTypes_hasBuiltins
    Sample.worldTypes_fieldsAgree hcompile (by decide) (Sample.world_wellTyped 1) hroot
    (v := .int 7) trivial
  exact ⟨hcompile, rfl, (hget _ _ rfl).2, rfl, (hassign rfl _ _ rfl).1⟩

end CompiledPath

end Introspect

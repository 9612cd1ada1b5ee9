import Introspect.Path.Compiled
import Introspect.Proofs.Memory
import Introspect.Proofs.Ty.Hierarchy

/-!
Indices of sequences, by what the sequences are seen as. An array is seen as an array or through
the interfaces of lists, and a list as its own class or through the same interfaces. The step for an
index is made for the static type: that of an array type reads arrays, and that of every other type
reads lists. So every sequence is read by the steps of the types that it converts to, but for an
array that is seen as `IList`.
-/

namespace Introspect

variable {ts : TypeSystem} {own s t : Ty} {v : Value} {h : Heap} {id : SequenceId} {index : Nat}

namespace TypeSystem

/-! ### What a sequence is seen as -/

/-- The types that a sequence of some type may be seen as: its own, an interface, or `object`. -/
inductive SeenAs (own : Ty) : Ty → Prop where
  | self : SeenAs own own
  | enumerable (elem : Ty) : SeenAs own (.enumerable elem)
  | listInterface : SeenAs own .listInterface
  | object : SeenAs own .object

/-- The built-in sequences have only interfaces above them. -/
theorem SeenAs.of_directSupertype (hts : ts.HasBuiltins) (hv : v = .array id ∨ v = .list id) :
    ∀ u ∈ ts.directSupertypes (v.typeOf h), SeenAs (v.typeOf h) u := by
  have hboth {own elem : Ty} (hown : ts.directSupertypes own = [.enumerable elem, .listInterface]) :
      ∀ u ∈ ts.directSupertypes own, SeenAs own u := by
    rw [hown]
    intro u hu
    rcases List.mem_pair.mp hu with rfl | rfl
    · exact .enumerable elem
    · exact .listInterface
  rcases hv with rfl | rfl
  · exact hboth rfl
  · simp only [Value.typeOf]
    split
    next elem _ => exact hboth (hts.directSupertypes_list elem)
    next =>
      rw [hts.directSupertypes_arrayList]
      intro u hu
      rw [List.mem_singleton.mp hu]
      exact .listInterface

theorem SeenAs.directSupertypes (hts : ts.HasBuiltins)
    (hown : ∀ u ∈ ts.directSupertypes own, SeenAs own u) (ht : SeenAs own t) :
    ∀ u ∈ ts.directSupertypes t, SeenAs own u := by
  cases ht with
  | self => exact hown
  | enumerable elem =>
    rw [hts.directSupertypes_enumerable]
    exact nofun
  | listInterface =>
    rw [hts.directSupertypes_listInterface]
    exact nofun
  | object =>
    rw [hts.directSupertypes_object]
    exact nofun

/-! ### Types with and without an indexing -/

theorem HasBuiltins.declaredIndex?_object (hts : ts.HasBuiltins) :
    ts.declaredIndex? .object = none := by
  simp only [Ty.object, Ty.plain, declaredIndex?, hts.find?_object]
  rfl

theorem HasBuiltins.declaredIndex?_enumerable (hts : ts.HasBuiltins) (elem : Ty) :
    ts.declaredIndex? (.enumerable elem) = none := by
  have hd := hts "IEnumerable" Builtin.enumerable rfl
  simp only [Ty.enumerable, declaredIndex?, hd]
  rfl

/-- A type that declares no indexing and has at most `object` above it has none. -/
theorem indexKind?_eq_none (hts : ts.HasBuiltins) (ht : ∀ elem, t ≠ .array elem)
    (habove : ts.directSupertypes t = []) (hdeclared : ts.declaredIndex? t = none) :
    ts.indexKind? t = none := by
  have hclosed : ∀ s, (s = t ∨ s = .object) → ∀ u ∈ ts.directSupertypes s, u = t ∨ u = .object := by
    rintro s (rfl | rfl)
    · rw [habove]
      exact nofun
    · rw [hts.directSupertypes_object]
      exact nofun
  rw [indexKind?_eq_findSome? ts ht, List.findSome?_eq_none_iff]
  intro s hs
  rcases mem_of_mem_supertypes (.inl rfl) (.inr rfl) hclosed s hs with rfl | rfl
  · exact hdeclared
  · exact hts.declaredIndex?_object

/-- Only arrays are indexed as arrays. -/
theorem ne_array_of_indexKind? {kind : IndexKind} (ht : ∀ elem, t ≠ .array elem)
    (hkind : ts.indexKind? t = some kind) : ∀ elem, kind ≠ .array elem := by
  rintro elem rfl
  rw [indexKind?_eq_findSome? ts ht] at hkind
  obtain ⟨u, -, hu⟩ := List.exists_of_findSome?_eq_some hkind
  cases u with
  | named n args =>
    obtain ⟨d, -, hd⟩ := Option.bind_eq_some_iff.mp hu
    split at hd <;> cases hd
  | array _ => cases hu
  | param _ => cases hu

/-- What a sequence is indexed as is its own type or `IList`. -/
theorem same_or_eq_listInterface (hts : ts.HasBuiltins) (hv : v = .array id ∨ v = .list id)
    (hsv : ts.isAssignable s (v.typeOf h) = true) {kind : IndexKind}
    (hkind : ts.indexKind? s = some kind) : s.Same (v.typeOf h) ∨ s = .listInterface := by
  obtain ⟨u, hsu, hu⟩ := exists_same_of_isAssignable .self .object
    (fun _ => SeenAs.directSupertypes hts (SeenAs.of_directSupertype hts hv)) hsv
  have hindexed : ts.indexKind? u ≠ none := by
    intro hnone
    have hrel := ts.indexKind?_congr hsu
    rw [hkind, hnone] at hrel
    cases hrel
  cases hu with
  | self => exact .inl hsu
  | enumerable elem =>
    exact absurd (indexKind?_eq_none hts (fun _ he => by cases he)
      (hts.directSupertypes_enumerable elem) (hts.declaredIndex?_enumerable elem)) hindexed
  | listInterface => exact .inr (Ty.eq_of_beq_of_closed (BEq.symm hsu) rfl).symm
  | object =>
    exact absurd (indexKind?_eq_none hts (fun _ he => by cases he)
      hts.directSupertypes_object hts.declaredIndex?_object) hindexed

end TypeSystem

/-! ### Steps for an index -/

/-- Whether a read of an index gives the item there, or is out of range if there is none, and leaves
the heap alone. -/
structure ReadsItem (h : Heap) (id : SequenceId) (index : Nat)
    (result : Except Error Value × Heap) : Prop where
  item : ∀ hi : index < (h.sequence id).items.length,
    result = (.ok (h.sequence id).items[index], h)
  outOfRange : (h.sequence id).items.length ≤ index →
    result = (.error (.indexOutOfRange index (h.sequence id).items.length), h)

theorem PathStep.readElement_of_fits (step : PathStep) (shape : String)
    (hv : v.sequenceId h = .ok id) :
    ReadsItem h id index (step.readElement true shape index v h) := by
  have hread : step.readElement true shape index v h = (v.element h index, h) := rfl
  rw [hread]
  constructor
  · intro hi
    simp [Value.element, hv, bind, Except.bind, List.getElem?_eq_getElem hi]
  · intro hi
    simp [Value.element, hv, bind, Except.bind, List.getElem?_eq_none hi]

namespace CompiledPath

/-- The step for an index of an array type reads arrays, and that of another type reads lists. -/
theorem indexStep_cases {kind : IndexKind} (hkind : ts.indexKind? s = some kind) (index : Nat)
    (path : String) : ∃ step, indexStep ts s index path = .ok step ∧
      ((∃ elem, s = .array elem) ∧
          (∀ v, step.read v = step.readElement (PathStep.isArray v) "array" index v) ∨
        (∀ elem, s ≠ .array elem) ∧
          ∀ v, step.read v = step.readElement (PathStep.isList v) "list" index v) := by
  by_cases hs : ∃ elem, s = .array elem
  · obtain ⟨elem, rfl⟩ := hs
    exact ⟨_, rfl, .inl ⟨⟨elem, rfl⟩, fun _ => rfl⟩⟩
  · have hne : ∀ elem, s ≠ .array elem := fun elem he => hs ⟨elem, he⟩
    have hlist : ∀ elem, kind ≠ .array elem := ts.ne_array_of_indexKind? hne hkind
    rw [indexStep, hkind]
    cases kind with
    | array elem => exact absurd rfl (hlist elem)
    | typedList elem => exact ⟨_, rfl, .inr ⟨hne, fun _ => rfl⟩⟩
    | untypedList => exact ⟨_, rfl, .inr ⟨hne, fun _ => rfl⟩⟩

/-- An index of a type that a sequence converts to reads the item there, or is out of range behind
the last one. Only an array that is seen as `IList` is refused, as its step is one for lists. -/
theorem read_indexStep (hts : ts.HasBuiltins) {kind : IndexKind}
    (hkind : ts.indexKind? s = some kind) (hv : v = .array id ∨ v = .list id)
    (hsv : ts.isAssignable s (v.typeOf h) = true) (index : Nat) (path : String) :
    ∃ step, indexStep ts s index path = .ok step ∧
      (¬(s = .listInterface ∧ v = .array id) → ReadsItem h id index (step.read v h)) ∧
      (s = .listInterface ∧ v = .array id →
        step.read v h = (.error (.typeMismatch "list" (v.typeOf h).text), h)) := by
  obtain ⟨step, hstep, hread⟩ := indexStep_cases hkind index path
  have hseen := TypeSystem.same_or_eq_listInterface hts hv hsv hkind
  refine ⟨step, hstep, ?_⟩
  rcases hv with rfl | rfl
  · rcases hread with ⟨⟨elem, rfl⟩, hread⟩ | ⟨hne, hread⟩
    · rw [hread]
      exact ⟨fun _ => step.readElement_of_fits "array" rfl, fun hlist => by cases hlist.1⟩
    · rw [hread]
      rcases hseen with hsame | rfl
      · obtain ⟨_, _, _, _, he, _⟩ | ⟨elem, _, rfl, _⟩ | ⟨_, _, _, he, _⟩ := Ty.same_cases hsame
        · cases he
        · exact absurd rfl (hne elem)
        · cases he
      · exact ⟨fun hn => absurd ⟨rfl, rfl⟩ hn, fun _ => rfl⟩
  · have hlist : ∀ elem, s ≠ .array elem := by
      rintro elem rfl
      rcases hseen with hsame | hs
      · simp only [Value.typeOf] at hsame
        split at hsame
        · cases hsame
        · cases hsame
      · cases hs
    rcases hread with ⟨⟨elem, hs⟩, -⟩ | ⟨-, hread⟩
    · exact absurd hs (hlist elem)
    · rw [hread]
      exact ⟨fun _ => step.readElement_of_fits "list" rfl, fun ha => by cases ha.2⟩

namespace Sample

/-- One sequence of integers. -/
def sevens : Heap := ⟨#[], #[⟨some .int, [.int 7]⟩], #[]⟩

theorem builtin_hasBuiltins : (Registry.builtin.types 8).HasBuiltins :=
  TypeSystem.hasBuiltins_of_definitions (List.append_nil _).symm 8

end Sample

theorem read_indexStep_sevens :
    (Registry.builtin.types 8).indexKind? .listInterface = some .untypedList ∧
    (Registry.builtin.types 8).isAssignable .listInterface ((Value.list 0).typeOf Sample.sevens) =
      true ∧
    (∃ step, indexStep (Registry.builtin.types 8) .listInterface 0 "items[0]" = .ok step ∧
      step.read (.list 0) Sample.sevens = (.ok (.int 7), Sample.sevens)) ∧
    ∃ step, indexStep (Registry.builtin.types 8) .listInterface 1 "items[1]" = .ok step ∧
      step.read (.list 0) Sample.sevens = (.error (.indexOutOfRange 1 1), Sample.sevens) := by
  have hkind : (Registry.builtin.types 8).indexKind? .listInterface = some .untypedList := rfl
  have hseen : (Registry.builtin.types 8).isAssignable .listInterface
      ((Value.list 0).typeOf Sample.sevens) = true := rfl
  obtain ⟨step, hstep, hitem, -⟩ :=
    read_indexStep Sample.builtin_hasBuiltins hkind (.inr rfl) hseen 0 "items[0]"
  obtain ⟨step', hstep', hout, -⟩ :=
    read_indexStep Sample.builtin_hasBuiltins hkind (.inr rfl) hseen 1 "items[1]"
  have hlist : ¬(Ty.listInterface = .listInterface ∧ Value.list 0 = .array 0) := by simp
  exact ⟨hkind, hseen, ⟨step, hstep, (hitem hlist).item Nat.one_pos⟩,
    step', hstep', (hout hlist).outOfRange Nat.le.refl⟩

/-- An array converts to `IList`, which is indexed, but the step for the index does not read it. -/
theorem array_not_read_as_listInterface :
    (Registry.builtin.types 8).HasBuiltins ∧
    (Registry.builtin.types 8).indexKind? .listInterface = some .untypedList ∧
    (Registry.builtin.types 8).isAssignable .listInterface ((Value.array 0).typeOf Sample.sevens) =
      true ∧
    (Sample.sevens.sequence 0).items.length = 1 ∧
    indexStep (Registry.builtin.types 8) .listInterface 0 "items[0]" = .ok (.untypedElement 0) ∧
    (PathStep.untypedElement 0).read (.array 0) Sample.sevens =
      (.error (.typeMismatch "list" "int[]"), Sample.sevens) :=
  ⟨Sample.builtin_hasBuiltins, rfl, rfl, rfl, rfl, rfl⟩

end CompiledPath

end Introspect

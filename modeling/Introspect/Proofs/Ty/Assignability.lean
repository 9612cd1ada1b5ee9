import Introspect.Proofs.Ty.BreadthFirst

/-!
Convertibility as an order. Where the walk up from a type ends, the type converts to `object` and to
what it reaches, and what is reached from what it reaches is reached from the type itself. If nothing
is declared above `object` then what converts by way of `object` converts to nothing more.
-/

namespace Introspect

namespace TypeSystem

open Ty (Same)

variable {ts : TypeSystem} {t u v : Ty}

/-! ### Ways up, one after the other -/

theorem Climbs.trans {m n : Nat} (htu : ts.Climbs t m u) (huv : ts.Climbs u n v) :
    ts.Climbs t (m + n) v := by
  induction huv with
  | start => exact htu
  | up _ hstep ih => exact .up ih hstep

/-- A way up from a type is one from each spelling of it, but for names. -/
theorem Climbs.congr {n : Nat} {s : Ty} (h : ts.Climbs u n v) (hus : u.Same s) :
    ∃ w, ts.Climbs s n w ∧ v.Same w := by
  induction h with
  | start => exact ⟨s, .start, hus⟩
  | up _ hstep ih =>
    obtain ⟨w, hw, hsame⟩ := ih
    obtain ⟨x, hx, hsame'⟩ := hstep.congr hsame
    exact ⟨x, .up hw hx, hsame'⟩

theorem Reaches.of_same (h : u.Same t) : ts.Reaches t u := ⟨0, t, .start, h⟩

theorem Reaches.trans (htu : ts.Reaches t u) (huv : ts.Reaches u v) : ts.Reaches t v := by
  obtain ⟨m, u', hu', husame⟩ := htu
  obtain ⟨n, v', hv', hvsame⟩ := huv
  obtain ⟨w, hw, hsame⟩ := hv'.congr husame
  exact ⟨m + n, w, hu'.trans hw, BEq.trans hvsame hsame⟩

/-- A way up is of no edges, or leads by way of a direct supertype. -/
theorem Climbs.cases_head {n : Nat} (h : ts.Climbs t n v) :
    v = t ∨ ∃ u m, ts.DirectSupertype t u ∧ ts.Climbs u m v := by
  induction h with
  | start => exact .inl rfl
  | @up _ u v _ hstep ih =>
    rcases ih with rfl | ⟨w, m, hw, hclimb⟩
    · exact .inr ⟨v, 0, hstep, .start⟩
    · exact .inr ⟨w, m + 1, hw, .up hclimb hstep⟩

theorem Reaches.cases_head (h : ts.Reaches t v) :
    v.Same t ∨ ∃ u, ts.DirectSupertype t u ∧ ts.Reaches u v := by
  obtain ⟨n, w, hw, hsame⟩ := h
  rcases hw.cases_head with rfl | ⟨u, m, hu, hclimb⟩
  · exact .inl hsame
  · exact .inr ⟨u, hu, m, w, hclimb, hsame⟩

/-! ### Hierarchies without cycles -/

theorem FinitelyAbove.of_direct (h : ∀ u, ts.DirectSupertype t u → ts.FinitelyAbove u) :
    ts.FinitelyAbove t := by
  choose! types htypes using h
  refine ⟨t :: (ts.directSupertypes t).flatMap types, fun v hv => ?_⟩
  rw [List.contains_cons, Bool.or_eq_true]
  rcases hv.cases_head with hsame | ⟨u, hu, hv⟩
  · exact .inl hsame
  · obtain ⟨w, hw, hvw⟩ := List.contains_iff_exists_mem_beq.mp (htypes u hu v hv)
    have hmem : w ∈ (ts.directSupertypes t).flatMap types :=
      List.mem_flatMap.mpr ⟨u, mem_directSupertypes.mpr hu, hw⟩
    exact .inr (List.contains_iff_exists_mem_beq.mpr ⟨w, hmem, hvw⟩)

/-- If every declared supertype names a definition of lower rank then finitely many types are above
each type, however its arguments grow on the way. -/
theorem finitelyAbove_of_rank (rank : String → Nat)
    (hrank : ∀ n d, ts.find? n = some d → ∀ u ∈ d.base.toList ++ d.interfaces,
      ∃ m, u.definitionName? = some m ∧ rank m < rank n) (t : Ty) : ts.FinitelyAbove t := by
  have hnamed (k : Nat) : ∀ n args, rank n = k → ts.FinitelyAbove (.named n args) := by
    induction k using Nat.strongRecOn with
    | ind k ih =>
      intro n args hk
      have hlower {d : TypeDef} (hd : ts.find? n = some d) {u : Ty}
          (hu : u ∈ d.base.toList ++ d.interfaces) : ts.FinitelyAbove (u.instantiate d.name args) := by
        obtain ⟨m, hm, hlt⟩ := hrank n d hd u hu
        cases u with
        | named _ _ =>
          cases hm
          exact ih (rank m) (hk ▸ hlt) m _ rfl
        | _ => cases hm
      refine .of_direct fun u hu => ?_
      cases hu with
      | base hd hb => exact hlower hd (List.mem_append_left _ (Option.mem_toList.mpr hb))
      | interface hd hi => exact hlower hd (List.mem_append_right _ hi)
  cases t with
  | named n args => exact hnamed _ n args rfl
  | array elem =>
    -- An array has no rank, but what is above it has names.
    refine .of_direct fun u hu => ?_
    cases hu with
    | enumerable => exact hnamed _ "IEnumerable" [elem] rfl
    | listInterface => exact hnamed _ "IList" [] rfl
  | param p => exact .of_direct nofun

/-! ### Convertibility -/

/-- What a type converts to under a limit that its walk keeps to. -/
theorem isAssignable_iff {bound limit : Nat} {found : List Ty}
    (h : ts.closure? bound [t] [] = some found) (hlimit : bound ≤ limit) :
    (ts.withLimit limit).isAssignable u t = true ↔ u.isObject = true ∨ ts.Reaches t u := by
  have hcontains := (breadthFirst_supertypes h hlimit).contains_iff
  simp only [isAssignable, Bool.or_eq_true, Bool.and_eq_true, Bool.not_eq_true', hcontains]
  constructor
  · rintro ((hsame | ⟨hobject, -⟩) | hreached | ⟨-, hsame⟩)
    · exact .inr (.of_same hsame)
    · exact .inl hobject
    · exact .inr hreached
    · exact .inl (Ty.isObject_congr hsame)
  · rintro (hobject | hreached)
    · -- `object` is among the supertypes of `void` too, which are not those of a parameter.
      cases hvoid : t.isVoid with
      | false => exact .inl (.inr ⟨hobject, rfl⟩)
      | true =>
        have hsame : u.Same .object := Ty.eq_object_of_isObject hobject ▸ BEq.rfl
        exact .inr (.inr ⟨Ty.isParam_of_isVoid hvoid, hsame⟩)
    · exact .inr (.inl hreached)

/-- Nothing is above an `object` that declares neither base nor interfaces. -/
theorem isObject_of_reaches
    (hobject : ∀ d, ts.find? "object" = some d → d.base = none ∧ d.interfaces = [])
    (ht : t.isObject = true) (h : ts.Reaches t u) : u.isObject = true := by
  cases Ty.eq_object_of_isObject ht
  rcases h.cases_head with hsame | ⟨v, hv, -⟩
  · exact Ty.isObject_congr hsame
  · cases hv with
    | base hd hb =>
      rw [(hobject _ hd).1] at hb
      cases hb
    | interface hd hi =>
      rw [(hobject _ hd).2] at hi
      cases hi

/-- Nothing is above a `void` that declares neither base nor interfaces, so it converts to itself,
and to the `object` that ends the supertypes of all but parameters. -/
theorem isAssignable_void
    (hvoid : ∀ d, ts.find? "void" = some d → d.base = none ∧ d.interfaces = [])
    (hlimit : 0 < ts.limit) (u : Ty) : ts.isAssignable u .void = (u.isVoid || u.isObject) := by
  have hdirect : ts.directSupertypes .void = [] := by
    simp only [Ty.void, Ty.plain, directSupertypes]
    split
    next d hd => rw [(hvoid d hd).1, (hvoid d hd).2]; rfl
    next => rfl
  have hwalk : ts.closure? 1 [.void] [] = some [.void] := by
    rw [closure?, if_neg (by simp), hdirect]
    rfl
  have hreaches : ts.Reaches .void u ↔ u.isVoid = true := by
    rw [← contains_closure?_iff hwalk, List.contains_cons, List.contains_nil, Bool.or_false]
    exact ⟨fun hsame => Ty.isVoid_congr hsame, fun hv => Ty.eq_void_of_isVoid hv ▸ BEq.rfl⟩
  rw [Bool.eq_iff_iff, Bool.or_eq_true, or_comm, ← hreaches]
  exact isAssignable_iff hwalk hlimit

/-- If nothing is above `object` and finitely many types are above each type then convertibility is
reflexive, and transitive under every limit that is high enough for the two types that convert. -/
theorem isAssignable_preorder
    (hobject : ∀ d, ts.find? "object" = some d → d.base = none ∧ d.interfaces = [])
    (hfinite : ∀ t, ts.FinitelyAbove t) :
    (∀ a, ts.isAssignable a a = true) ∧ ∀ a b, ∃ bound, ∀ limit, bound ≤ limit → ∀ c,
      (ts.withLimit limit).isAssignable b a = true →
      (ts.withLimit limit).isAssignable c b = true →
      (ts.withLimit limit).isAssignable c a = true := by
  refine ⟨fun a => ?_, fun a b => ?_⟩
  · have hsame : (a == a) = true := BEq.rfl
    rw [isAssignable, hsame, Bool.true_or, Bool.true_or]
  · obtain ⟨i, _, ha⟩ := finitelyAbove_iff.mp (hfinite a)
    obtain ⟨j, _, hb⟩ := finitelyAbove_iff.mp (hfinite b)
    refine ⟨max i j, fun limit hlimit c => ?_⟩
    rw [isAssignable_iff ha (Nat.le_trans (Nat.le_max_left i j) hlimit),
      isAssignable_iff ha (Nat.le_trans (Nat.le_max_left i j) hlimit),
      isAssignable_iff hb (Nat.le_trans (Nat.le_max_right i j) hlimit)]
    rintro hab (hc | hbc)
    · exact .inl hc
    · rcases hab with hbobject | hab
      -- The type in the middle is `object`, so that is all that it converts to.
      · exact .inl (isObject_of_reaches hobject hbobject hbc)
      · exact .inr (hab.trans hbc)

namespace Sample

/-- The built-in definitions, a class `Rows<T>: IEnumerable<T>` and a class `Table: Rows<int>`. -/
def tables : Registry :=
  ⟨Registry.builtin.definitions ++
    [{ TypeDef.new "Rows" .classType with
        params := [⟨"T", .none, []⟩], interfaces := [.enumerable (.param ⟨"Rows", 0, "T"⟩)] },
      { TypeDef.new "Table" .classType with base := some (one "Rows" .int) }]⟩

def rank (name : String) : Nat :=
  ["IEnumerable", "IList", "List", "ArrayList", "Rows", "Table"].idxOf name

theorem finitelyAbove_tables (limit : Nat) (t : Ty) : (tables.types limit).FinitelyAbove t := by
  have hranked : (tables.definitions.all fun d => (d.base.toList ++ d.interfaces).all fun u =>
      u.definitionName?.any fun m => decide (rank m < rank d.name)) = true := by decide
  simp only [List.all_eq_true, Option.any_eq_true, decide_eq_true_eq] at hranked
  refine finitelyAbove_of_rank rank (fun n d hd u hu => ?_) t
  have hfound : tables.definitions.find? (fun d => d.name == n) = some d := hd
  have hname : d.name = n := by simpa using List.find?_some hfound
  rw [← hname]
  exact hranked d (List.mem_of_find?_eq_some hfound) u hu

end Sample

theorem isAssignable_preorder_tables :
    (∀ d, (Sample.tables.types 0).find? "object" = some d → d.base = none ∧ d.interfaces = []) ∧
    (∀ t, (Sample.tables.types 0).FinitelyAbove t) ∧
    ∃ bound, ∀ limit, bound ≤ limit →
      (Sample.tables.types limit).isAssignable (Sample.one "Rows" .int) (.plain "Table") = true ∧
      (Sample.tables.types limit).isAssignable (.enumerable .int) (Sample.one "Rows" .int) = true ∧
      (Sample.tables.types limit).isAssignable (.enumerable .int) (.plain "Table") = true := by
  have hobject : ∀ d, (Sample.tables.types 0).find? "object" = some d →
      d.base = none ∧ d.interfaces = [] := by
    intro d hd
    cases hd
    exact ⟨rfl, rfl⟩
  have hfinite := Sample.finitelyAbove_tables 0
  -- What holds under a limit that a walk keeps to holds under the higher ones.
  have hmono {t u : Ty} {limit : Nat} (hsome : ((Sample.tables.types 0).closure? 8 [t] []).isSome = true)
      (h : (Sample.tables.types 8).isAssignable u t = true) (hlimit : 8 ≤ limit) :
      (Sample.tables.types limit).isAssignable u t = true := by
    obtain ⟨found, hfound⟩ := Option.isSome_iff_exists.mp hsome
    exact (isAssignable_iff hfound hlimit).mpr ((isAssignable_iff hfound (Nat.le_refl 8)).mp h)
  obtain ⟨-, htrans⟩ := isAssignable_preorder hobject hfinite
  obtain ⟨bound, hbound⟩ := htrans (.plain "Table") (Sample.one "Rows" .int)
  refine ⟨hobject, hfinite, max bound 8, fun limit hlimit => ?_⟩
  have hrows : (Sample.tables.types limit).isAssignable (Sample.one "Rows" .int) (.plain "Table") =
      true := hmono rfl rfl (Nat.le_trans (Nat.le_max_right bound 8) hlimit)
  have hitems : (Sample.tables.types limit).isAssignable (.enumerable .int) (Sample.one "Rows" .int) =
      true := hmono rfl rfl (Nat.le_trans (Nat.le_max_right bound 8) hlimit)
  exact ⟨hrows, hitems, hbound limit (Nat.le_trans (Nat.le_max_left bound 8) hlimit) _ hrows hitems⟩

end TypeSystem

end Introspect

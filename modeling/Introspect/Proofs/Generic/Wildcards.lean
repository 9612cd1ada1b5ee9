import Introspect.Proofs.Generic.Constraint
import Introspect.Registry

/-!
The meaning of a check that is made while some parameters are open. Each constraint is met exactly
if its open parameters can be replaced so that the candidate converts to it, whatever is chosen for
the other constraints. So a check never gets stricter when less is known.
-/

namespace Introspect

namespace Ty

/-- The type with every parameter replaced. -/
def fill (t : Ty) (w : TyParam → Ty) : Ty := t.subst fun q => some (w q)

theorem fill_congr {t : Ty} {w w' : TyParam → Ty} (h : ∀ q ∈ t.occurrences, w q = w' q) :
    t.fill w = t.fill w' :=
  subst_congr fun q hq => h q hq

/-- What is filled in for parameters may be put in for some of them first, as long as no type that
is put in first mentions one of these. -/
theorem fill_subst {f g : TyParam → Option Ty} (hfg : ∀ q u, f q = some u → g q = some u)
    (hfresh : ∀ q u, g q = some u → ∀ r ∈ u.occurrences, g r = none) (t : Ty)
    (w : TyParam → Ty) :
    (t.subst f).fill (fun q => ((param q).subst g).fill w) = (t.subst g).fill w := by
  have hpoint : ∀ q, ((param q).subst f).fill (fun r => ((param r).subst g).fill w) =
      ((param q).subst g).fill w := by
    intro q
    cases hf : f q with
    | none => simp only [subst, hf, fill, Option.getD_none, Option.getD_some]
    | some u =>
      have hg := hfg q u hf
      simp only [subst, hf, hg, Option.getD_some]
      apply fill_congr
      intro r hr
      rw [hfresh q u hg r hr]
      rfl
  rw [fill, fill, subst_subst, subst_subst]
  exact congrArg (fun σ => t.subst σ) (funext fun q => congrArg some (hpoint q))

end Ty

namespace Bindings

/-- Whether every bound type is closed. -/
def Closed (b : Bindings) : Prop := ∀ q t, b.find? q = some t → t.isOpen = false

/-- Whether no bound type mentions a bound parameter. -/
def Fresh (b : Bindings) : Prop :=
  ∀ q t, b.find? q = some t → ∀ r ∈ t.occurrences, b.find? r = none

theorem Closed.insert {b : Bindings} (hb : b.Closed) {p : TyParam} {t : Ty}
    (ht : t.isOpen = false) : (b.insert p t).Closed := by
  intro q u hq
  rcases find?_insert_eq_some.mp hq with ⟨-, rfl⟩ | ⟨-, hq⟩
  · exact ht
  · exact hb q u hq

theorem Closed.fresh {b : Bindings} (hb : b.Closed) : b.Fresh :=
  fun q t hq r hr => absurd hr (Ty.isOpen_eq_false_iff.mp (hb q t hq) r)

theorem insert_subset_insert {b b' : Bindings} (h : b ⊆ b') (p : TyParam) (t : Ty) :
    b.insert p t ⊆ b'.insert p t := by
  intro q u hq
  rw [find?_insert_eq_some] at hq ⊢
  exact hq.imp_right fun ⟨hpq, hq⟩ => ⟨hpq, h q u hq⟩

end Bindings

namespace Parameter

variable {ts : TypeSystem}

/-! ### One constraint -/

/-- A constraint is met if its parameters can be replaced so that the candidate converts to it. -/
theorem meets_iff {k t : Ty} : meets ts k t = true ↔
    ∃ w : TyParam → Ty, NameBlind (fun q => some (w q)) ∧ ts.isAssignable (k.fill w) t = true := by
  constructor
  · intro h
    rw [meets_eq] at h
    obtain ⟨b, hb⟩ := Option.isSome_iff_exists.mp h
    obtain ⟨hbinds, hassignable⟩ := TypeSystem.convertible_of_unifyAssignable hb
    -- Unification binds every parameter of the constraint, so it does not matter what others get.
    refine ⟨fun q => (b.find? q).getD .object, ?_, ?_⟩
    · intro p q hpq
      exact congrArg (fun u : Option Ty => some (u.getD .object)) (b.nameBlind_find? p q hpq)
    · have hfill : k.fill (fun q => (b.find? q).getD .object) = k.apply b := by
        apply Ty.subst_congr
        intro q hq
        obtain ⟨u, hu⟩ := Option.isSome_iff_exists.mp (hbinds.isSome_of_mem hq)
        simp only [Ty.subst, hu, Option.getD_some]
      rw [hfill]
      exact hassignable
  · rintro ⟨w, hw, hassignable⟩
    exact meets_of_isAssignable_subst hw hassignable

/-- A constraint that is met stays so when parameters are left open that were replaced. -/
theorem meets_apply_of_subset {b b' : Bindings} (hsub : b ⊆ b') (hfresh : b'.Fresh) {k t : Ty}
    (h : meets ts (k.apply b') t = true) : meets ts (k.apply b) t = true := by
  obtain ⟨w, hw, hassignable⟩ := meets_iff.mp h
  refine meets_iff.mpr ⟨fun q => ((Ty.param q).apply b').fill w, ?_, ?_⟩
  · intro p q hpq
    have hfind := b'.nameBlind_find? p q hpq
    simp only [Ty.apply, Ty.subst, hfind]
    cases b'.find? q with
    | none => exact hw p q hpq
    | some u => rfl
  · rw [Ty.apply] at hassignable ⊢
    rw [← Ty.fill_subst hsub hfresh] at hassignable
    exact hassignable

/-! ### All of them -/

theorem satisfies_iff_check {p : Parameter} {t : Ty} {known : Bindings} :
    p.satisfies ts t known = true ↔ p.check ts t known = .ok () := by
  unfold satisfies check
  cases p.violation? ts t known with
  | none => exact ⟨fun _ => rfl, fun _ => rfl⟩
  | some reason => exact ⟨nofun, nofun⟩

theorem check_of_subset {p : Parameter} {t : Ty} {fewer known : Bindings} (hsub : fewer ⊆ known)
    (hfresh : (known.insert p.param t).Fresh) (h : p.check ts t known = .ok ()) :
    p.check ts t fewer = .ok () := by
  obtain ⟨hspecial, hconstraints⟩ := check_eq_ok.mp h
  refine check_eq_ok.mpr ⟨hspecial, fun k hk => ?_⟩
  have hinsert := Bindings.insert_subset_insert hsub p.param t
  exact meets_apply_of_subset hinsert hfresh (hconstraints k hk)

/-- A closed candidate is accepted exactly if it is of the kinds asked for and, for each constraint
on its own, what known parameters leave open of it can be filled in so that the candidate converts
to it. A candidate that is accepted is accepted when less is known, too. -/
theorem satisfies_iff (ts : TypeSystem) (p : Parameter) {t : Ty} {known : Bindings}
    (ht : t.isOpen = false) (hknown : known.Closed) :
    (p.satisfies ts t known = true ↔ p.special.MetBy ts t ∧
      ∀ k ∈ p.constraints, ∃ w : TyParam → Ty, NameBlind (fun q => some (w q)) ∧
        ts.isAssignable ((k.apply (known.insert p.param t)).fill w) t = true) ∧
      (p.satisfies ts t known = true → ∀ fewer, fewer ⊆ known →
        p.satisfies ts t fewer = true) := by
  constructor
  · rw [satisfies_iff_check, check_eq_ok]
    exact and_congr_right fun _ => forall₂_congr fun k _ => meets_iff
  · intro h fewer hsub
    rw [satisfies_iff_check] at h ⊢
    exact check_of_subset hsub (hknown.insert ht).fresh h

namespace Sample

def row : TyParam := ⟨"Table", 1, "Row"⟩

/-- A class `Table<Rows: class, IEnumerable<Row>, Row>`. -/
def table : TypeDef :=
  { TypeDef.new "Table" .classType with
    params := [⟨"Rows", ⟨true, false, false⟩, [.enumerable (.param row)]⟩, ⟨"Row", .none, []⟩] }

def types : TypeSystem := (Registry.builtin.register table).types 16

def rows : Parameter := .ofDeclared table table.params[0] 0

def knownRow : Bindings := Bindings.empty.insert row .int

theorem closed_knownRow : knownRow.Closed :=
  Bindings.Closed.insert (b := .empty) (fun _ _ hq => (nomatch hq)) rfl

end Sample

theorem satisfies_rows : (Ty.list .int).isOpen = false ∧ Sample.knownRow.Closed ∧
    Sample.rows.special.MetBy Sample.types (.list .int) ∧
    (∃ w : TyParam → Ty, Sample.types.isAssignable
      (((Ty.enumerable (.param Sample.row)).apply
        (Sample.knownRow.insert Sample.rows.param (.list .int))).fill w) (.list .int) = true) ∧
    Sample.rows.satisfies Sample.types (.list .int) .empty = true := by
  obtain ⟨hiff, hfewer⟩ :=
    satisfies_iff Sample.types Sample.rows (t := .list .int) rfl Sample.closed_knownRow
  have hrows : Sample.rows.satisfies Sample.types (.list .int) Sample.knownRow = true := rfl
  obtain ⟨hspecial, hconstraints⟩ := hiff.mp hrows
  obtain ⟨w, -, hw⟩ := hconstraints _ (List.mem_singleton_self _)
  exact ⟨rfl, Sample.closed_knownRow, hspecial, ⟨w, hw⟩,
    hfewer hrows .empty fun _ _ hq => (nomatch hq)⟩

end Parameter

end Introspect

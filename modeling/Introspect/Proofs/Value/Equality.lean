import Introspect.Proofs.Ty.Naming
import Introspect.Proofs.Value.Nesting
import Introspect.Value.Equality

/-!
Equality of values as an equivalence. Where no sequence contains itself every comparison ends, for
the way down passes each sequence once. The shortcut for one and the same sequence fits in with the
comparison of contents, as the contents are equal to themselves.
-/

namespace Introspect

open Ty (Same)

instance : EquivBEq (Option Ty) where
  rfl := fun {t?} => by
    cases t? with
    | none => rfl
    | some t => exact BEq.refl t
  symm := fun {t? u?} htu => by
    match t?, u? with
    | none, none => rfl
    | some t, some u => exact BEq.symm (α := Ty) htu
  trans := fun {t? u? v?} htu huv => by
    match t?, u?, v? with
    | none, none, none => rfl
    | some t, some u, some v => exact BEq.trans (α := Ty) htu huv

theorem forall₂_trans {α : Type} {R : α → α → Prop} (hR : ∀ a b c, R a b → R b c → R a c)
    {as bs cs : List α} (hab : List.Forall₂ R as bs) (hbc : List.Forall₂ R bs cs) :
    List.Forall₂ R as cs := by
  induction hab generalizing cs with
  | nil => exact hbc
  | cons h _ ih =>
    cases hbc with
    | cons h' hbc => exact .cons (hR _ _ _ h h') (ih hbc)

theorem forall₂_imp_of_mem {α β : Type} {R S : α → β → Prop} {as : List α} {bs : List β}
    (hRS : ∀ a ∈ as, ∀ b, R a b → S a b) (hab : List.Forall₂ R as bs) : List.Forall₂ S as bs :=
  ((List.forall₂_and_left _ _).mpr ⟨hRS, hab⟩).imp fun _ b hab => hab.1 b hab.2

namespace Value

variable {h : Heap} {R R' : Value → Value → Prop} {u v w : Value}

/-! ### One level -/

/-- Whether two sequences are one and the same, or equal in the type of their elements and in their
items, on which `R` decides. -/
def EqualSequences (h : Heap) (R : Value → Value → Prop) (i j : SequenceId) : Prop :=
  i = j ∨ ((h.sequence i).elem == (h.sequence j).elem) = true ∧
    List.Forall₂ R (h.sequence i).items (h.sequence j).items

/-- Whether two values are equal at the top, where `R` decides on what is inside them: floats by
their bits, objects by identity, and structs by their types and fields. -/
def EqualBy (h : Heap) (R : Value → Value → Prop) : Value → Value → Prop
  | null, null => True
  | bool a, bool b => a = b
  | int a, int b => a = b
  | float a, float b => a.bits = b.bits
  | string a, string b => a = b
  | struct ty fs, struct ty' gs =>
    ty.Same ty' ∧ List.Forall₂ (fun f g => f.1 = g.1 ∧ R f.2 g.2) fs gs
  | object i, object j => i = j
  | array i, array j | list i, list j => EqualSequences h R i j
  | _, _ => False

section

variable {i j k : SequenceId}

theorem EqualSequences.symm (hR : ∀ v w, R v w → R w v) (hij : EqualSequences h R i j) :
    EqualSequences h R j i :=
  hij.imp Eq.symm fun hc => ⟨BEq.symm hc.1, (hc.2.imp hR).flip⟩

theorem EqualSequences.trans (hR : ∀ u v w, R u v → R v w → R u w) (hij : EqualSequences h R i j)
    (hjk : EqualSequences h R j k) : EqualSequences h R i k := by
  -- One of the two may be by identity, and then the other one is the whole comparison.
  rcases hij with rfl | hij
  · exact hjk
  · rcases hjk with rfl | hjk
    · exact .inr hij
    · exact .inr ⟨BEq.trans hij.1 hjk.1, forall₂_trans hR hij.2 hjk.2⟩

theorem EqualSequences.mono (hR : ∀ a ∈ (h.sequence i).items, ∀ b, R a b → R' a b)
    (hij : EqualSequences h R i j) : EqualSequences h R' i j :=
  hij.imp_right fun hc => ⟨hc.1, forall₂_imp_of_mem hR hc.2⟩

end

theorem EqualBy.refl (hR : ∀ u ∈ v.parts h, R u u) : EqualBy h R v v := by
  cases v with
  | struct ty fields =>
    exact ⟨BEq.rfl, List.forall₂_same.mpr fun f hf => ⟨rfl, hR f.2 (List.mem_map_of_mem hf)⟩⟩
  | array id | list id => exact .inl rfl
  | null => trivial
  | _ => rfl

theorem EqualBy.symm (hR : ∀ v w, R v w → R w v) (hvw : EqualBy h R v w) : EqualBy h R w v := by
  cases v with
  | struct ty fs =>
    cases w with
    | struct ty' gs =>
      exact ⟨BEq.symm hvw.1, (hvw.2.imp fun f g hfg => ⟨hfg.1.symm, hR _ _ hfg.2⟩).flip⟩
    | _ => cases hvw
  | array i =>
    cases w with
    | array j => exact EqualSequences.symm hR hvw
    | _ => cases hvw
  | list i =>
    cases w with
    | list j => exact EqualSequences.symm hR hvw
    | _ => cases hvw
  | null => cases w <;> exact hvw
  | _ => cases w <;> first | exact Eq.symm hvw | cases hvw

theorem EqualBy.trans (hR : ∀ u v w, R u v → R v w → R u w) (huv : EqualBy h R u v)
    (hvw : EqualBy h R v w) : EqualBy h R u w := by
  cases u with
  | struct ty fs =>
    cases v with
    | struct ty' gs =>
      cases w with
      | struct ty'' ks =>
        refine ⟨BEq.trans huv.1 hvw.1, forall₂_trans ?_ huv.2 hvw.2⟩
        exact fun f g k hfg hgk => ⟨hfg.1.trans hgk.1, hR _ _ _ hfg.2 hgk.2⟩
      | _ => cases hvw
    | _ => cases huv
  | array i =>
    cases v with
    | array j =>
      cases w with
      | array k => exact EqualSequences.trans hR huv hvw
      | _ => cases hvw
    | _ => cases huv
  | list i =>
    cases v with
    | list j =>
      cases w with
      | list k => exact EqualSequences.trans hR huv hvw
      | _ => cases hvw
    | _ => cases huv
  | null =>
    cases v with
    | null => exact hvw
    | _ => cases huv
  | _ =>
    cases v <;> first | cases huv; done | skip
    cases w <;> first | exact Eq.trans huv hvw | cases hvw

/-- What decides inside counts for what is directly inside the first value only. -/
theorem EqualBy.mono (hR : ∀ a ∈ v.parts h, ∀ b, R a b → R' a b) (hvw : EqualBy h R v w) :
    EqualBy h R' v w := by
  cases v with
  | struct ty fs =>
    cases w with
    | struct ty' gs =>
      refine ⟨hvw.1, forall₂_imp_of_mem (fun f hf g hfg => ⟨hfg.1, ?_⟩) hvw.2⟩
      exact hR _ (List.mem_map_of_mem hf) _ hfg.2
    | _ => cases hvw
  | array i =>
    cases w with
    | array j => exact EqualSequences.mono hR hvw
    | _ => cases hvw
  | list i =>
    cases w with
    | list j => exact EqualSequences.mono hR hvw
    | _ => cases hvw
  | _ => cases w <;> exact hvw

/-! ### The comparison with a given comparison inside -/

variable {inner inner' : Value → Value → Option Bool}

theorem equalPairs?_eq_true_iff {vs ws : List Value} (hlength : vs.length = ws.length) :
    equalPairs? inner (vs.zip ws) = some true ↔
      List.Forall₂ (fun v w => inner v w = some true) vs ws := by
  induction vs generalizing ws with
  | nil =>
    obtain rfl := List.length_eq_zero_iff.mp hlength.symm
    exact ⟨fun _ => .nil, fun _ => rfl⟩
  | cons v vs ih =>
    cases ws with
    | nil => cases hlength
    | cons w ws =>
      rw [List.zip_cons_cons, List.forall₂_cons, ← ih (Nat.succ.inj hlength), equalPairs?]
      split
      · next hvw => simp [hvw]
      · next hvw => exact ⟨fun h => absurd h hvw, fun h => absurd h.1 hvw⟩

theorem equalFields?_eq_true_iff {fs gs : Fields} :
    equalFields? inner fs gs = some true ↔
      List.Forall₂ (fun f g => f.1 = g.1 ∧ inner f.2 g.2 = some true) fs gs := by
  induction fs generalizing gs with
  | nil => cases gs <;> simp [equalFields?]
  | cons f fs ih =>
    cases gs with
    | nil => simp [equalFields?]
    | cons g gs =>
      rw [List.forall₂_cons, ← ih, equalFields?]
      split
      · next hname =>
        split
        · next hvw => simp [hvw, beq_iff_eq.mp hname]
        · next hvw => exact ⟨fun h => absurd h hvw, fun h => absurd h.1.2 hvw⟩
      · next hname => simp [beq_iff_eq.not.mp hname]

theorem equalPairs?_congr {pairs : List (Value × Value)}
    (hinner : ∀ p ∈ pairs, inner p.1 p.2 = inner' p.1 p.2) :
    equalPairs? inner pairs = equalPairs? inner' pairs := by
  induction pairs with
  | nil => rfl
  | cons p pairs ih =>
    obtain ⟨hp, hpairs⟩ := List.forall_mem_cons.mp hinner
    rw [equalPairs?, equalPairs?, hp, ih hpairs]

theorem equalFields?_congr {fs gs : Fields}
    (hinner : ∀ f ∈ fs, ∀ w, inner f.2 w = inner' f.2 w) :
    equalFields? inner fs gs = equalFields? inner' fs gs := by
  induction fs generalizing gs with
  | nil => cases gs <;> rfl
  | cons f fs ih =>
    obtain ⟨hf, hfs⟩ := List.forall_mem_cons.mp hinner
    cases gs with
    | nil => rfl
    | cons g gs => rw [equalFields?, equalFields?, hf, ih hfs]

theorem isSome_equalPairs? {pairs : List (Value × Value)}
    (hinner : ∀ p ∈ pairs, (inner p.1 p.2).isSome = true) :
    (equalPairs? inner pairs).isSome = true := by
  induction pairs with
  | nil => rfl
  | cons p pairs ih =>
    obtain ⟨hp, hpairs⟩ := List.forall_mem_cons.mp hinner
    rw [equalPairs?]
    split
    · exact ih hpairs
    · exact hp

theorem isSome_equalFields? {fs gs : Fields} (hinner : ∀ f ∈ fs, ∀ w, (inner f.2 w).isSome = true) :
    (equalFields? inner fs gs).isSome = true := by
  induction fs generalizing gs with
  | nil => cases gs <;> rfl
  | cons f fs ih =>
    obtain ⟨hf, hfs⟩ := List.forall_mem_cons.mp hinner
    cases gs with
    | nil => rfl
    | cons g gs =>
      rw [equalFields?]
      split
      · split
        · exact ih hfs
        · exact hf _
      · rfl

/-- Compares sequences, by identity first. -/
def equalSequences? (h : Heap) (inner : Value → Value → Option Bool) (i j : SequenceId) :
    Option Bool :=
  let s := h.sequence i
  let t := h.sequence j
  if i == j then some true
  else if s.elem == t.elem && s.items.length == t.items.length then
    equalPairs? inner (s.items.zip t.items)
  else some false

theorem equalSequences?_eq_true_iff {i j : SequenceId} :
    equalSequences? h inner i j = some true ↔
      EqualSequences h (fun v w => inner v w = some true) i j := by
  rw [equalSequences?, EqualSequences]
  split
  · next hij => exact ⟨fun _ => .inl (beq_iff_eq.mp hij), fun _ => rfl⟩
  · next hij =>
    rw [or_iff_right (beq_iff_eq.not.mp hij)]
    split
    · next hsame =>
      rw [Bool.and_eq_true, beq_iff_eq (α := Nat)] at hsame
      rw [equalPairs?_eq_true_iff hsame.2, and_iff_right hsame.1]
    · next hsame =>
      rw [Bool.and_eq_true, beq_iff_eq (α := Nat)] at hsame
      exact ⟨fun hfalse => (Bool.false_ne_true (Option.some.inj hfalse)).elim,
        fun hc => absurd ⟨hc.1, hc.2.length_eq⟩ hsame⟩

theorem equalSequences?_congr {i j : SequenceId}
    (hinner : ∀ a ∈ (h.sequence i).items, ∀ b, inner a b = inner' a b) :
    equalSequences? h inner i j = equalSequences? h inner' i j := by
  rw [equalSequences?, equalSequences?,
    equalPairs?_congr fun p hp => hinner p.1 (List.of_mem_zip hp).1 p.2]

theorem isSome_equalSequences? {i j : SequenceId}
    (hinner : ∀ a ∈ (h.sequence i).items, ∀ b, (inner a b).isSome = true) :
    (equalSequences? h inner i j).isSome = true := by
  rw [equalSequences?]
  split
  · rfl
  · split
    · exact isSome_equalPairs? fun p hp => hinner p.1 (List.of_mem_zip hp).1 p.2
    · rfl

/-! ### The comparison -/

section EqualWith

variable {n m : Nat} {i j : SequenceId}

theorem equalWith?_array :
    equalWith? h (n + 1) (array i) (array j) = equalSequences? h (equalWith? h n) i j := rfl

theorem equalWith?_list :
    equalWith? h (n + 1) (list i) (list j) = equalSequences? h (equalWith? h n) i j := rfl

theorem equalWith?_struct {ty ty' : Ty} {fs gs : Fields} :
    equalWith? h (n + 1) (struct ty fs) (struct ty' gs) =
      if ty == ty' && fs.length == gs.length then equalFields? (equalWith? h n) fs gs
      else some false := rfl

/-- With fuel left the comparison is one level of equality, with the comparison on less fuel
inside. -/
theorem equalWith?_succ_eq_true_iff :
    equalWith? h (n + 1) v w = some true ↔
      EqualBy h (fun a b => equalWith? h n a b = some true) v w := by
  cases v with
  | struct ty fs =>
    cases w with
    | struct ty' gs =>
      rw [equalWith?_struct, EqualBy, ← equalFields?_eq_true_iff]
      split
      · next hsame =>
        rw [Bool.and_eq_true] at hsame
        rw [and_iff_right hsame.1]
      · next hsame =>
        rw [Bool.and_eq_true, beq_iff_eq (α := Nat)] at hsame
        refine ⟨fun hfalse => (Bool.false_ne_true (Option.some.inj hfalse)).elim, fun hc => ?_⟩
        exact absurd ⟨hc.1, (equalFields?_eq_true_iff.mp hc.2).length_eq⟩ hsame
    | _ => simp [equalWith?, EqualBy]
  | array i =>
    cases w with
    | array j => rw [equalWith?_array, EqualBy, equalSequences?_eq_true_iff]
    | _ => simp [equalWith?, EqualBy]
  | list i =>
    cases w with
    | list j => rw [equalWith?_list, EqualBy, equalSequences?_eq_true_iff]
    | _ => simp [equalWith?, EqualBy]
  | float a =>
    cases w with
    | float b =>
      have hbits : a = b ↔ a.bits = b.bits := by
        cases a
        cases b
        rw [Binary64.mk.injEq]
      simpa [equalWith?, EqualBy] using hbits
    | _ => simp [equalWith?, EqualBy]
  | _ => cases w <;> simp [equalWith?, EqualBy]

theorem equalWith?_symm (hvw : equalWith? h n v w = some true) :
    equalWith? h n w v = some true := by
  induction n generalizing v w with
  | zero => cases hvw
  | succ n ih =>
    rw [equalWith?_succ_eq_true_iff] at hvw ⊢
    exact hvw.symm fun _ _ => ih

theorem equalWith?_trans (huv : equalWith? h n u v = some true)
    (hvw : equalWith? h n v w = some true) : equalWith? h n u w = some true := by
  induction n generalizing u v w with
  | zero => cases huv
  | succ n ih =>
    rw [equalWith?_succ_eq_true_iff] at huv hvw ⊢
    exact huv.trans (fun _ _ _ => ih) hvw

/-- Two amounts of fuel that are both enough for a value give the same answers for it. -/
theorem equalWith?_congr (hn : v.DepthAtMost h n) (hm : v.DepthAtMost h m) :
    equalWith? h n v w = equalWith? h m v w := by
  induction n generalizing m v w with
  | zero => exact hn.elim
  | succ n ih =>
    cases m with
    | zero => exact hm.elim
    | succ m =>
      have hinner (a : Value) (ha : a ∈ v.parts h) (b : Value) :
          equalWith? h n a b = equalWith? h m a b := ih (hn a ha) (hm a ha)
      cases v with
      | struct ty fs =>
        cases w with
        | struct ty' gs =>
          rw [equalWith?_struct, equalWith?_struct,
            equalFields?_congr fun f hf => hinner f.2 (List.mem_map_of_mem hf)]
        | _ => rfl
      | array i =>
        cases w with
        | array j => rw [equalWith?_array, equalWith?_array, equalSequences?_congr hinner]
        | _ => rfl
      | list i =>
        cases w with
        | list j => rw [equalWith?_list, equalWith?_list, equalSequences?_congr hinner]
        | _ => rfl
      | _ => cases w <;> rfl

theorem isSome_equalWith? (hn : v.DepthAtMost h n) : (equalWith? h n v w).isSome = true := by
  induction n generalizing v w with
  | zero => exact hn.elim
  | succ n ih =>
    have hinner (a : Value) (ha : a ∈ v.parts h) (b : Value) :
        (equalWith? h n a b).isSome = true := ih (hn a ha)
    cases v with
    | struct ty fs =>
      cases w with
      | struct ty' gs =>
        rw [equalWith?_struct]
        split
        · exact isSome_equalFields? fun f hf => hinner f.2 (List.mem_map_of_mem hf)
        · rfl
      | _ => rfl
    | array i =>
      cases w with
      | array j =>
        rw [equalWith?_array]
        exact isSome_equalSequences? hinner
      | _ => rfl
    | list i =>
      cases w with
      | list j =>
        rw [equalWith?_list]
        exact isSome_equalSequences? hinner
      | _ => rfl
    | _ => cases w <;> rfl

end EqualWith

section Equal

variable (hh : h.Acyclic)
include hh

/-- The comparison of two values is the one with any fuel that is enough for the first value. -/
theorem equal?_eq_equalWith? {n : Nat} (hn : v.DepthAtMost h n) :
    equal? h v w = equalWith? h n v w := by
  refine equalWith?_congr ((hh.depthAtMost v).mono ?_) hn
  have := Nat.le_mul_self (h.weight + v.weight + w.weight + 1)
  omega

theorem isSome_equal? (v w : Value) : (equal? h v w).isSome = true := by
  rw [equal?_eq_equalWith? hh (hh.depthAtMost v)]
  exact isSome_equalWith? (hh.depthAtMost v)

theorem equal_iff_equalWith? {n : Nat} (hn : v.DepthAtMost h n) :
    equal h v w = true ↔ equalWith? h n v w = some true := by
  rw [equal, equal?_eq_equalWith? hh hn]
  cases equalWith? h n v w <;> simp

/-- Values are equal if they are at the top and what is inside them is. -/
theorem equal_iff_equalBy :
    equal h v w = true ↔ EqualBy h (fun a b => equal h a b = true) v w := by
  have hdepth : v.DepthAtMost h (h.weight + v.weight + 1) :=
    (hh.depthAtMost v).mono (Nat.le_succ _)
  rw [equal_iff_equalWith? hh hdepth, equalWith?_succ_eq_true_iff]
  exact ⟨EqualBy.mono fun a ha b => (equal_iff_equalWith? hh (hdepth a ha)).mpr,
    EqualBy.mono fun a ha b => (equal_iff_equalWith? hh (hdepth a ha)).mp⟩

theorem equal_self_of_depthAtMost {n : Nat} (hn : v.DepthAtMost h n) : equal h v v = true := by
  induction n generalizing v with
  | zero => exact hn.elim
  | succ n ih => exact (equal_iff_equalBy hh).mpr (EqualBy.refl fun u hu => ih (hn u hu))

theorem exists_depthAtMost_pair (v w : Value) : ∃ n, v.DepthAtMost h n ∧ w.DepthAtMost h n :=
  ⟨max (h.weight + v.weight) (h.weight + w.weight), (hh.depthAtMost v).mono (Nat.le_max_left _ _),
    (hh.depthAtMost w).mono (Nat.le_max_right _ _)⟩

theorem equal_symm (hvw : equal h v w = true) : equal h w v = true := by
  obtain ⟨n, hv, hw⟩ := exists_depthAtMost_pair hh v w
  rw [equal_iff_equalWith? hh hv] at hvw
  exact (equal_iff_equalWith? hh hw).mpr (equalWith?_symm hvw)

theorem equal_trans (huv : equal h u v = true) (hvw : equal h v w = true) :
    equal h u w = true := by
  obtain ⟨n, hu, hv⟩ := exists_depthAtMost_pair hh u v
  rw [equal_iff_equalWith? hh hu] at huv
  rw [equal_iff_equalWith? hh hv] at hvw
  exact (equal_iff_equalWith? hh hu).mpr (equalWith?_trans huv hvw)

end Equal

/-- Where no sequence contains itself, every comparison of values ends, and equality is an
equivalence that is settled level by level: a value is equal to itself also if it is or holds a
float that is not a number, and an object also if it leads back to itself. -/
theorem equal_equivalence (hh : h.Acyclic) :
    (∀ v w, (equal? h v w).isSome = true) ∧
      Equivalence (fun v w => equal h v w = true) ∧
      ∀ v w, equal h v w = true ↔ EqualBy h (fun a b => equal h a b = true) v w :=
  ⟨isSome_equal? hh,
    ⟨fun v => equal_self_of_depthAtMost hh (hh.depthAtMost v), equal_symm hh, equal_trans hh⟩,
    fun _ _ => equal_iff_equalBy hh⟩

namespace Sample

/-- A person whose friends are a list with the person in it, and two separate arrays that each hold
a float that is not a number beside a struct with its own list of names. -/
def circle : Heap :=
  let notANumber := Value.float ⟨0x7ff8000000000000⟩
  let tagged (names : SequenceId) := Value.struct (.named "Tagged" []) [("names", list names)]
  { records := #[⟨.named "Person" [], [("friends", list 0), ("self", object 0)]⟩]
    sequences := #[⟨some (.named "Person" []), [object 0]⟩,
      ⟨some .object, [notANumber, tagged 3]⟩, ⟨some .object, [notANumber, tagged 4]⟩,
      ⟨some .string, [string "a"]⟩, ⟨some .string, [string "a"]⟩]
    slots := #[] }

/-- Only the two arrays have sequences inside, which come after them. -/
theorem circle_acyclic : circle.Acyclic := by
  refine Heap.acyclic_of_rank (fun i => 5 - i) fun i j hij => ?_
  obtain ⟨v, hv, hj⟩ := hij
  match i, hv with
  | 0, hv | 3, hv | 4, hv =>
    obtain rfl := List.mem_singleton.mp hv
    cases hj
  | 1, hv | 2, hv =>
    rcases List.mem_pair.mp hv with rfl | rfl
    · cases hj
    · obtain rfl := List.mem_singleton.mp hj
      decide
  | i + 5, hv => cases hv

end Sample

theorem equal_equivalence_circle :
    Sample.circle.Acyclic ∧
    equal Sample.circle (array 1) (array 2) = true ∧
    (∀ v w, (equal? Sample.circle v w).isSome = true) ∧
      Equivalence (fun v w => equal Sample.circle v w = true) ∧
      ∀ v w, equal Sample.circle v w = true ↔
        EqualBy Sample.circle (fun a b => equal Sample.circle a b = true) v w :=
  ⟨Sample.circle_acyclic, rfl, equal_equivalence Sample.circle_acyclic⟩

end Value

end Introspect

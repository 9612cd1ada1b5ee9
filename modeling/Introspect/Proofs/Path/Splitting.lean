import Introspect.Path.Segment
import Introspect.Proofs.Except
import Mathlib.Data.List.Induction
import Mathlib.Data.List.TakeWhile

/-!
Splitting of paths. A text that splits leaves nothing open at its end, so a dot behind it divides,
and what comes after that dot splits as it does alone.
-/

namespace Introspect

namespace Text

theorem trim_eq_nil_iff {cs : List Char} : trim cs = [] ↔ ∀ c ∈ cs, isBlank c = true := by
  have hstart : trim cs = [] ↔ ∀ c ∈ trimStart cs, isBlank c = true := by
    simp only [trim, trimEnd, List.reverse_eq_nil_iff, List.dropWhile_eq_nil_iff, List.mem_reverse]
  rw [hstart]
  constructor
  · intro h c hc
    rw [← List.takeWhile_append_dropWhile (p := isBlank) (l := cs)] at hc
    rcases List.mem_append.mp hc with hc | hc
    · exact List.mem_takeWhile_imp hc
    · exact h c hc
  · exact fun h c hc => h c ((List.dropWhile_suffix isBlank).subset hc)

end Text

namespace Segment

open Text (trim)

/-! ### Pieces -/

theorem pieces_nil_eq_ok {n : Nesting} {ps : List (List Char)} :
    pieces n [] = .ok ps ↔ n = .start ∧ ps = [[]] := by
  obtain ⟨depth, quote⟩ := n
  simp only [pieces, Nesting.start, Nesting.mk.injEq]
  constructor
  · intro h
    split at h
    · cases h
    next hquote =>
      split at h
      · cases h
      next hdepth =>
        cases h
        exact ⟨⟨not_not.mp hdepth, not_not.mp hquote⟩, rfl⟩
  · rintro ⟨⟨rfl, rfl⟩, rfl⟩
    rfl

/-- Where nothing is open a dot begins a new piece. -/
theorem pieces_dot_eq_ok {cs : List Char} {ps : List (List Char)} :
    pieces .start ('.' :: cs) = .ok ps ↔ ∃ rest, pieces .start cs = .ok rest ∧ ps = [] :: rest := by
  have hdot : pieces .start ('.' :: cs) = (pieces .start cs).map ([] :: ·) := rfl
  rw [hdot, Except.map_eq_ok]
  exact exists_congr fun rest => and_congr_right' eq_comm

/-- Every other character goes to the first of the pieces behind it. -/
theorem pieces_cons {n : Nesting} {c : Char} (hc : ¬(n = .start ∧ c = '.')) (cs : List Char) :
    pieces n (c :: cs) = match n.next? c with
      | none => .error s!"unbalanced `{c}`"
      | some n' => (pieces n' cs).map fun ps => (c :: ps.headD []) :: ps.tail := by
  have hcond : ¬(decide (n = .start) && c == '.') = true := by simpa using hc
  rw [pieces, if_neg hcond]
  cases n.next? c with
  | none => rfl
  | some n' =>
    dsimp only
    rcases pieces n' cs with e | (_ | ⟨p, ps⟩)
    · rfl
    · rfl
    · rfl

theorem pieces_ne_nil {n : Nesting} {cs : List Char} {ps : List (List Char)}
    (h : pieces n cs = .ok ps) : ps ≠ [] := by
  cases cs with
  | nil =>
    rw [(pieces_nil_eq_ok.mp h).2]
    exact List.cons_ne_nil _ _
  | cons c cs =>
    by_cases hc : n = .start ∧ c = '.'
    · obtain ⟨rfl, rfl⟩ := hc
      obtain ⟨rest, -, rfl⟩ := pieces_dot_eq_ok.mp h
      exact List.cons_ne_nil _ _
    · rw [pieces_cons hc] at h
      split at h
      · cases h
      · obtain ⟨ps, -, rfl⟩ := Except.map_eq_ok.mp h
        exact List.cons_ne_nil _ _

theorem pieces_cons_eq_ok {n : Nesting} {c : Char} (hc : ¬(n = .start ∧ c = '.')) {cs : List Char}
    {ps : List (List Char)} :
    pieces n (c :: cs) = .ok ps ↔ ∃ n' p rest, n.next? c = some n' ∧
      pieces n' cs = .ok (p :: rest) ∧ ps = (c :: p) :: rest := by
  rw [pieces_cons hc]
  constructor
  · intro h
    split at h
    · cases h
    next n' hn =>
      obtain ⟨qs, hqs, rfl⟩ := Except.map_eq_ok.mp h
      obtain ⟨p, rest, rfl⟩ := List.exists_cons_of_ne_nil (pieces_ne_nil hqs)
      exact ⟨n', p, rest, hn, hqs, rfl⟩
  · rintro ⟨n', p, rest, hn, hp, rfl⟩
    simp only [hn]
    exact Except.map_eq_ok.mpr ⟨p :: rest, hp, rfl⟩

/-- A dot behind a text that splits divides it from what comes after. -/
theorem pieces_append_dot {n : Nesting} {cs ds : List Char} {ps qs : List (List Char)}
    (hp : pieces n cs = .ok ps) (hq : pieces .start ds = .ok qs) :
    pieces n (cs ++ '.' :: ds) = .ok (ps ++ qs) := by
  -- The nesting is free in the induction; success brings it back to the start at the joining dot.
  induction cs generalizing n ps with
  | nil =>
    obtain ⟨rfl, rfl⟩ := pieces_nil_eq_ok.mp hp
    exact pieces_dot_eq_ok.mpr ⟨qs, hq, rfl⟩
  | cons c cs ih =>
    by_cases hc : n = .start ∧ c = '.'
    · obtain ⟨rfl, rfl⟩ := hc
      obtain ⟨rest, hrest, rfl⟩ := pieces_dot_eq_ok.mp hp
      exact pieces_dot_eq_ok.mpr ⟨rest ++ qs, ih hrest, rfl⟩
    · obtain ⟨n', p, rest, hn, hrest, rfl⟩ := (pieces_cons_eq_ok hc).mp hp
      exact (pieces_cons_eq_ok hc).mpr ⟨n', p, rest ++ qs, hn, ih hrest, rfl⟩

theorem pieces_singleton {n : Nesting} {cs p : List Char} (h : pieces n cs = .ok [p]) : p = cs := by
  induction cs generalizing n p with
  | nil =>
    have hp := (pieces_nil_eq_ok.mp h).2
    cases hp
    rfl
  | cons c cs ih =>
    by_cases hc : n = .start ∧ c = '.'
    · obtain ⟨rfl, rfl⟩ := hc
      obtain ⟨rest, hrest, hp⟩ := pieces_dot_eq_ok.mp h
      cases hp
      exact absurd rfl (pieces_ne_nil hrest)
    · obtain ⟨n', q, rest, -, hrest, hp⟩ := (pieces_cons_eq_ok hc).mp h
      cases hp
      rw [ih hrest]

/-- The last of several pieces stands behind a dot, and it splits alone as the text before that dot
does. -/
theorem pieces_concat {n : Nesting} {cs p : List Char} {ps : List (List Char)} (hne : ps ≠ [])
    (h : pieces n cs = .ok (ps ++ [p])) :
    ∃ ds, cs = ds ++ '.' :: p ∧ pieces n ds = .ok ps ∧ pieces .start p = .ok [p] := by
  obtain ⟨q, ps, rfl⟩ := List.exists_cons_of_ne_nil hne
  rw [List.cons_append] at h
  induction cs generalizing n q ps with
  | nil =>
    have hps := (pieces_nil_eq_ok.mp h).2
    simp at hps
  | cons c cs ih =>
    by_cases hc : n = .start ∧ c = '.'
    · obtain ⟨rfl, rfl⟩ := hc
      obtain ⟨rest, hrest, hps⟩ := pieces_dot_eq_ok.mp h
      cases hps
      cases ps with
      | nil =>
        obtain rfl := pieces_singleton hrest
        exact ⟨[], rfl, rfl, hrest⟩
      | cons q' ps =>
        obtain ⟨ds, rfl, hds, hp⟩ := ih q' ps (List.cons_ne_nil q' ps) hrest
        exact ⟨'.' :: ds, rfl, pieces_dot_eq_ok.mpr ⟨_, hds, rfl⟩, hp⟩
    · obtain ⟨n', q', rest, hn, hrest, hps⟩ := (pieces_cons_eq_ok hc).mp h
      cases hps
      obtain ⟨ds, rfl, hds, hp⟩ := ih q' ps (List.cons_ne_nil q' ps) hrest
      exact ⟨c :: ds, rfl, (pieces_cons_eq_ok hc).mpr ⟨n', q', ps, hn, hds, rfl⟩, hp⟩

/-- The characters of the pieces are characters of the text. -/
theorem mem_of_mem_pieces {n : Nesting} {cs p : List Char} {ps : List (List Char)} {x : Char}
    (h : pieces n cs = .ok ps) (hp : p ∈ ps) (hx : x ∈ p) : x ∈ cs := by
  induction cs generalizing n ps p with
  | nil =>
    rw [(pieces_nil_eq_ok.mp h).2, List.mem_singleton] at hp
    rw [hp] at hx
    cases hx
  | cons c cs ih =>
    by_cases hc : n = .start ∧ c = '.'
    · obtain ⟨rfl, rfl⟩ := hc
      obtain ⟨rest, hrest, rfl⟩ := pieces_dot_eq_ok.mp h
      rcases List.mem_cons.mp hp with rfl | hp
      · cases hx
      · exact List.mem_cons_of_mem _ (ih hrest hp hx)
    · obtain ⟨n', q, rest, -, hrest, rfl⟩ := (pieces_cons_eq_ok hc).mp h
      rcases List.mem_cons.mp hp with rfl | hp
      · rcases List.mem_cons.mp hx with rfl | hx
        · exact List.mem_cons_self
        · exact List.mem_cons_of_mem _ (ih hrest List.mem_cons_self hx)
      · exact List.mem_cons_of_mem c (ih hrest (List.mem_cons_of_mem q hp) hx)

/-! ### Raw segments -/

theorem split_eq_ok {path : String} {raws : List String} :
    split path = .ok raws ↔ ∃ ps, pieces .start path.toList = .ok ps ∧ (∀ p ∈ ps, trim p ≠ []) ∧
      raws = ps.map String.ofList := by
  unfold split
  cases pieces .start path.toList with
  | error e => simp
  | ok ps =>
    have hblank : (∀ p ∈ ps, trim p ≠ []) ↔ ps.findIdx? (fun p => (trim p).isEmpty) = none := by
      simp only [List.findIdx?_eq_none_iff, List.isEmpty_eq_false_iff, ne_eq]
    simp only [Except.ok.injEq, exists_eq_left', hblank]
    cases ps.findIdx? fun p => (trim p).isEmpty with
    | none => simp only [Except.ok.injEq, true_and, eq_comm]
    | some n => simp only [reduceCtorEq, false_and]

theorem split_ne_nil {path : String} {raws : List String} (h : split path = .ok raws) :
    raws ≠ [] := by
  obtain ⟨ps, hps, -, rfl⟩ := split_eq_ok.mp h
  simpa using pieces_ne_nil hps

/-- A text that splits is not blank. -/
theorem trim_ne_nil_of_split {path : String} {raws : List String} (h : split path = .ok raws) :
    trim path.toList ≠ [] := by
  obtain ⟨ps, hps, hne, -⟩ := split_eq_ok.mp h
  obtain ⟨p, rest, rfl⟩ := List.exists_cons_of_ne_nil (pieces_ne_nil hps)
  intro hblank
  apply hne p List.mem_cons_self
  rw [Text.trim_eq_nil_iff] at hblank ⊢
  exact fun c hc => hblank c (mem_of_mem_pieces hps List.mem_cons_self hc)

/-- Texts that split are joined by a dot to one that splits into the segments of both. -/
theorem split_append_dot {p q : String} {ps qs : List String} (hp : split p = .ok ps)
    (hq : split q = .ok qs) : split (p ++ "." ++ q) = .ok (ps ++ qs) := by
  obtain ⟨ps, hps, hpne, rfl⟩ := split_eq_ok.mp hp
  obtain ⟨qs, hqs, hqne, rfl⟩ := split_eq_ok.mp hq
  refine split_eq_ok.mpr ⟨ps ++ qs, ?_, ?_, List.map_append.symm⟩
  · have hjoin : (p ++ "." ++ q).toList = p.toList ++ '.' :: q.toList := by
      simp
    rw [hjoin]
    exact pieces_append_dot hps hqs
  · intro r hr
    rcases List.mem_append.mp hr with hr | hr
    · exact hpne r hr
    · exact hqne r hr

/-- Texts that split to themselves alone are what their join splits into. -/
theorem split_intercalate {raws : List String} (hne : raws ≠ [])
    (hraws : ∀ raw ∈ raws, split raw = .ok [raw]) : split (".".intercalate raws) = .ok raws := by
  induction raws with
  | nil => exact absurd rfl hne
  | cons raw rest ih =>
    obtain ⟨hraw, hrest⟩ := List.forall_mem_cons.mp hraws
    by_cases hlast : rest = []
    · subst hlast
      rw [String.intercalate_singleton]
      exact hraw
    · rw [String.intercalate_cons_of_ne_nil hlast]
      exact split_append_dot hraw (ih hlast hrest)

/-- The last raw segment of a text stands alone or behind a dot, and it splits alone as the text
before that dot does. -/
theorem split_concat {path raw : String} {front : List String}
    (h : split path = .ok (front ++ [raw])) :
    split raw = .ok [raw] ∧
      (front = [] ∧ path = raw ∨ ∃ p, split p = .ok front ∧ path = p ++ "." ++ raw) := by
  obtain ⟨all, hall, hblank, hraws⟩ := split_eq_ok.mp h
  obtain ⟨ps, last, rfl, rfl, hlast⟩ := List.map_eq_append_iff.mp hraws.symm
  obtain ⟨p, rfl, rfl⟩ := List.map_eq_singleton_iff.mp hlast
  have hp : trim p ≠ [] := hblank p (List.mem_append_right ps (List.mem_singleton_self p))
  have hone (hpieces : pieces .start p = .ok [p]) :
      split (String.ofList p) = .ok [String.ofList p] := by
    refine split_eq_ok.mpr ⟨[p], ?_, fun q hq => ?_, rfl⟩
    · rw [String.toList_ofList]
      exact hpieces
    · rw [List.mem_singleton.mp hq]
      exact hp
  by_cases hne : ps = []
  · subst hne
    obtain rfl := pieces_singleton hall
    exact ⟨hone hall, Or.inl ⟨rfl, String.ofList_toList.symm⟩⟩
  · obtain ⟨ds, hds, hfront, hpieces⟩ := pieces_concat hne hall
    refine ⟨hone hpieces, Or.inr ⟨String.ofList ds, ?_, ?_⟩⟩
    · refine split_eq_ok.mpr ⟨ps, ?_, fun q hq => hblank q (List.mem_append_left _ hq), rfl⟩
      rw [String.toList_ofList]
      exact hfront
    · rw [← String.toList_inj, hds]
      simp

/-- A text is the join of its raw segments, and each of them splits to itself alone. -/
theorem intercalate_of_split {path : String} {raws : List String} (h : split path = .ok raws) :
    ".".intercalate raws = path ∧ ∀ raw ∈ raws, split raw = .ok [raw] := by
  -- The induction takes segments off the end, where each dot is known to divide.
  induction raws using List.reverseRecOn generalizing path with
  | nil => exact absurd rfl (split_ne_nil h)
  | append_singleton front last ih =>
    obtain ⟨hlast, ⟨rfl, rfl⟩ | ⟨p, hp, rfl⟩⟩ := split_concat h
    · refine ⟨String.intercalate_singleton, fun raw hraw => ?_⟩
      obtain rfl := List.mem_singleton.mp hraw
      exact hlast
    · obtain ⟨hjoin, hfront⟩ := ih hp
      refine ⟨?_, fun raw hraw => ?_⟩
      · rw [String.intercalate_append_of_ne_nil (split_ne_nil hp) (List.cons_ne_nil last []), hjoin,
          String.intercalate_singleton]
      · rcases List.mem_append.mp hraw with hraw | hraw
        · exact hfront raw hraw
        · obtain rfl := List.mem_singleton.mp hraw
          exact hlast

end Segment

end Introspect

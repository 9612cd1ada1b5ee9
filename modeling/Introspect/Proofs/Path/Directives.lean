import Introspect.Proofs.Path.Rootless

/-!
Directives around paths. A marker counts at the start of a text or behind a blank, and the value of
a directive ends where a dash comes behind a space, whatever stands around them. Paths have such
places only behind the parenthesis of a call, so a path without calls is the same with `-p:` before
it as without.
-/

namespace Introspect

namespace Directive

open Text (isBlank trim)

/-! ### Markers -/

variable {marker cs rest : List Char} {boundary : Bool}

/-- Whether what follows a text is at a boundary: behind a blank, or at the front if that is one. -/
def EndsAtBoundary (boundary : Bool) (cs : List Char) : Prop :=
  (cs.getLast?.map isBlank).getD boundary = true

theorem endsAtBoundary_cons (c : Char) (cs : List Char) :
    EndsAtBoundary boundary (c :: cs) ↔ EndsAtBoundary (isBlank c) cs := by
  cases cs with
  | nil => exact Iff.rfl
  | cons d cs =>
    unfold EndsAtBoundary
    rw [List.getLast?_cons_cons]
    cases hlast : (d :: cs).getLast? with
    | none => cases List.getLast?_eq_none_iff.mp hlast
    | some x => exact Iff.rfl

theorem not_endsAtBoundary (h : ∀ c ∈ cs, isBlank c = false) : ¬EndsAtBoundary false cs := by
  unfold EndsAtBoundary
  cases hlast : cs.getLast? with
  | none => exact Bool.false_ne_true
  | some x =>
    have hx := h x (List.mem_of_getLast? hlast)
    simp [hx]

/-- Whether a marker stands nowhere at a boundary, except perhaps in the first `skip` characters. -/
def Unmarked (marker : List Char) (skip : Nat) (boundary : Bool) (cs : List Char) : Prop :=
  ∀ front back, cs = front ++ (marker ++ back) → skip ≤ front.length →
    ¬EndsAtBoundary boundary front

theorem unmarked_nil (hne : marker ≠ []) (skip : Nat) : Unmarked marker skip boundary [] := by
  intro front back hcs
  simp [hne] at hcs

theorem unmarked_succ_cons {skip : Nat} {c : Char} :
    Unmarked marker (skip + 1) boundary (c :: cs) ↔ Unmarked marker skip (isBlank c) cs := by
  constructor
  · intro h front back hcs hlength
    rw [← endsAtBoundary_cons]
    exact h (c :: front) back (congrArg (c :: ·) hcs) (Nat.succ_le_succ hlength)
  · intro h front back hcs hlength
    cases front with
    | nil => cases hlength
    | cons d front =>
      obtain ⟨rfl, htail⟩ := List.cons.inj hcs
      rw [endsAtBoundary_cons]
      exact h front back htail (Nat.le_of_succ_le_succ hlength)

theorem Unmarked.mono {skip skip' : Nat} (h : Unmarked marker skip boundary cs)
    (hskip : skip ≤ skip') : Unmarked marker skip' boundary cs :=
  fun front back hcs hlength => h front back hcs (hskip.trans hlength)

/-- Where the marker does not stand nothing is missed by going on. -/
theorem unmarked_of_not_isPrefix (hmiss : ¬marker <+: cs) :
    Unmarked marker 0 boundary cs ↔ Unmarked marker 1 boundary cs := by
  refine ⟨fun h => h.mono (Nat.zero_le 1), fun h front back hcs _ => ?_⟩
  cases front with
  | nil => exact absurd ⟨back, hcs.symm⟩ hmiss
  | cons d front => exact h (d :: front) back hcs (Nat.le_add_left _ _)

/-- A marker that is not at a boundary is passed as a whole: a boundary in it would be a blank. -/
theorem unmarked_of_isPrefix (hsolid : ∀ c ∈ marker, isBlank c = false) (hmarker : marker <+: cs) :
    Unmarked marker 0 false cs ↔ Unmarked marker (marker.length - 1 + 1) false cs := by
  refine ⟨fun h => h.mono (Nat.zero_le _), fun h front back hcs _ hends => ?_⟩
  by_cases hlength : marker.length - 1 + 1 ≤ front.length
  · exact h front back hcs hlength hends
  · have hshort : front.length ≤ marker.length := by omega
    have hfront : front <+: marker :=
      List.prefix_of_prefix_length_le ⟨marker ++ back, hcs.symm⟩ hmarker hshort
    exact not_endsAtBoundary (fun x hx => hsolid x (hfront.subset hx)) hends

/-- A marker is not found exactly if it stands nowhere at a boundary. -/
theorem afterMarker?_eq_none (hne : marker ≠ []) (hsolid : ∀ c ∈ marker, isBlank c = false)
    (skip : Nat) :
    afterMarker? marker skip boundary cs = none ↔ Unmarked marker skip boundary cs := by
  induction cs generalizing skip boundary with
  | nil =>
    have hempty : marker.isEmpty = false := List.isEmpty_eq_false_iff.mpr hne
    have hnone : afterMarker? marker skip boundary [] = none := by
      rw [afterMarker?, hempty, Bool.and_false, if_neg Bool.false_ne_true]
    exact iff_of_true hnone (unmarked_nil hne skip)
  | cons c cs ih =>
    cases skip with
    | succ skip =>
      have hskip : ¬((skip + 1 == 0) && marker.isPrefixOf (c :: cs)) = true := by simp
      rw [afterMarker?, if_neg hskip, Nat.add_sub_cancel, ih, unmarked_succ_cons]
    | zero =>
      by_cases hmarker : marker <+: c :: cs
      · have htest : ((0 == 0) && marker.isPrefixOf (c :: cs)) = true :=
          List.isPrefixOf_iff_prefix.mpr hmarker
        rw [afterMarker?, if_pos htest]
        cases boundary with
        | true =>
          obtain ⟨back, hback⟩ := hmarker
          exact iff_of_false nofun fun h => h [] back hback.symm (Nat.zero_le _) rfl
        | false =>
          rw [if_neg Bool.false_ne_true, ih, unmarked_of_isPrefix hsolid hmarker,
            unmarked_succ_cons]
      · have htest : ¬((0 == 0) && marker.isPrefixOf (c :: cs)) = true :=
          fun h => hmarker (List.isPrefixOf_iff_prefix.mp h)
        rw [afterMarker?, if_neg htest, ih, unmarked_of_not_isPrefix hmarker, unmarked_succ_cons]

theorem length_of_afterMarker? {skip : Nat}
    (h : afterMarker? marker skip boundary cs = some rest) :
    rest.length + marker.length ≤ cs.length := by
  induction cs generalizing skip boundary with
  | nil =>
    rw [afterMarker?] at h
    split at h
    next hempty =>
      cases h
      simpa using (Bool.and_eq_true_iff.mp hempty).2
    next => cases h
  | cons c cs ih =>
    rw [afterMarker?] at h
    split at h
    next hleads =>
      have hleads := List.isPrefixOf_iff_prefix.mp (Bool.and_eq_true_iff.mp hleads).2
      split at h
      · cases h
        have hlength := hleads.length_le
        rw [List.length_drop]
        omega
      · exact (ih h).trans (Nat.le_succ _)
    next => exact (ih h).trans (Nat.le_succ _)

/-! ### Values -/

theorem untilDash_cons {c : Char} (hdash : ∀ rest, c = ' ' → cs = '-' :: rest → False) :
    untilDash (c :: cs) = c :: untilDash cs := by
  rw [untilDash]
  exact hdash

theorem untilDash_isPrefix (cs : List Char) : untilDash cs <+: cs := by
  induction cs using untilDash.induct with
  | case1 cs => exact List.nil_prefix
  | case2 c cs hdash ih =>
    rw [untilDash_cons hdash]
    exact List.cons_prefix_cons.mpr ⟨rfl, ih⟩
  | case3 => exact List.nil_prefix

/-- A value is shorter than the text that it is found in. -/
theorem length_of_find? {text marker value : String} (hne : marker.toList ≠ [])
    (h : find? text marker = some value) : value.toList.length < text.toList.length := by
  obtain ⟨rest, hrest, rfl⟩ := Option.map_eq_some_iff.mp h
  have hvalue := Text.length_trim_le (untilDash rest)
  have huntil := (untilDash_isPrefix rest).length_le
  have hafter := length_of_afterMarker? hrest
  have hmarker := List.length_pos_iff.mpr hne
  rw [String.toList_ofList]
  omega

/-- The value of a directive is the whole text behind the marker exactly if no dash comes behind a
space. -/
theorem untilDash_eq_self : untilDash cs = cs ↔ ¬[' ', '-'] <:+: cs := by
  induction cs using untilDash.induct with
  | case1 cs =>
    have hcut : untilDash (' ' :: '-' :: cs) = [] := by rw [untilDash]
    rw [hcut]
    exact iff_of_false nofun (not_not.mpr ⟨[], cs, rfl⟩)
  | case2 c cs hdash ih =>
    have hhead : ¬[' ', '-'] <+: c :: cs := by
      rintro ⟨back, hback⟩
      cases hback
      exact hdash _ rfl rfl
    rw [untilDash_cons hdash, List.cons.injEq, eq_self, true_and, ih, List.infix_cons_iff, not_or]
    exact ⟨fun h => ⟨hhead, h⟩, fun h => h.2⟩
  | case3 => exact iff_of_true rfl (by simp)

end Directive

/-! ### Dashes in paths -/

namespace Segment

open Text (isBlank trim)

theorem dash_not_mem_of_digits? {cs : List Char} {n : Nat} (h : Text.digits? cs = some n) :
    '-' ∉ cs := by
  intro hdash
  unfold Text.digits? at h
  split at h
  next hdigits =>
    have hall := (Bool.and_eq_true_iff.mp hdigits).2
    have hdigit := List.all_eq_true.mp hall '-' hdash
    cases hdigit
  next => cases h

theorem dash_not_mem_of_unsigned? {cs : List Char} {n : Nat} (h : Text.unsigned? cs = some n) :
    '-' ∉ cs := by
  obtain ⟨hdigits, -⟩ := Option.filter_eq_some_iff.mp h
  split at hdigits
  next rest =>
    intro hdash
    rcases List.mem_cons.mp hdash with hplus | hdash
    · cases hplus
    · exact dash_not_mem_of_digits? hdigits hdash
  next => exact dash_not_mem_of_digits? hdigits

theorem dash_not_mem_of_trim {cs : List Char} (h : '-' ∉ trim cs) : '-' ∉ cs := by
  obtain ⟨front, back, hfront, hback, hcs⟩ := Text.exists_trim cs
  rw [hcs, List.mem_append, List.mem_append, not_or, not_or]
  refine ⟨fun hdash => ?_, h, fun hdash => ?_⟩
  · cases hfront '-' hdash
  · cases hback '-' hdash

/-- Indices have no sign but a plus. -/
theorem dash_not_mem_of_parseIndices {path raw : String} {fuel : Nat} {cs : List Char}
    {indices : List Nat} (h : parseIndices path raw fuel cs = .ok (indices, [])) : '-' ∉ cs := by
  induction fuel generalizing cs indices with
  | zero =>
    cases h
    exact List.not_mem_nil
  | succ fuel ih =>
    unfold parseIndices at h
    split at h
    next fuel' cs hfuel =>
      cases hfuel
      dsimp only at h
      split at h
      · cases h
      next close rest hclose =>
        split at h
        · cases h
        next index hindex =>
          obtain ⟨⟨later, rest'⟩, hlater, h⟩ := Except.bind_eq_ok.mp h
          cases h
          have hinside := dash_not_mem_of_trim (dash_not_mem_of_unsigned? hindex)
          have hcs : cs = cs.takeWhile (· != ']') ++ close :: rest := by
            rw [← hclose, List.takeWhile_append_dropWhile]
          have hbracket : close = ']' := by
            have hhead := List.head?_dropWhile_not (· != ']') cs
            rw [hclose] at hhead
            simpa using hhead
          rw [hcs, hbracket]
          simp only [List.mem_cons, List.mem_append, not_or]
          exact ⟨by decide, hinside, by decide, ih hlater⟩
    next =>
      cases h
      exact List.not_mem_nil

theorem takeWhile_append_subset {p : Char → Bool} {cs ds : List Char}
    (h : ∀ d ∈ ds.head?, p d = false) : (cs ++ ds).takeWhile p ⊆ cs := by
  induction cs with
  | nil =>
    cases ds with
    | nil => exact List.Subset.refl []
    | cons d ds =>
      have hd : ¬p d = true := by simp [h d rfl]
      rw [List.nil_append, List.takeWhile_cons_of_neg hd]
      exact List.Subset.refl []
  | cons c cs ih =>
    by_cases hc : p c = true
    · rw [List.cons_append, List.takeWhile_cons_of_pos hc]
      exact List.cons_subset_cons c ih
    · rw [List.cons_append, List.takeWhile_cons_of_neg hc]
      exact List.nil_subset _

/-- A segment has a dash only behind the parenthesis of its call. -/
theorem dash_not_mem_of_parse {path raw : String} {s : Segment} (h : parse path raw = .ok s) :
    '-' ∉ raw.toList.takeWhile (· != '(') := by
  obtain ⟨front, back, hfront, hback, hraw⟩ := Text.exists_trim raw.toList
  have hname : '-' ∉ (trim raw.toList).takeWhile isNameChar :=
    fun hdash => by cases List.mem_takeWhile_imp hdash
  have hcut : trim raw.toList = (trim raw.toList).takeWhile isNameChar ++
      (trim raw.toList).dropWhile isNameChar := List.takeWhile_append_dropWhile.symm
  have hblank {cs : List Char} (hcs : ∀ c ∈ cs, isBlank c = true) : '-' ∉ cs :=
    fun hdash => by cases hcs '-' hdash
  obtain ⟨rest, hparsed⟩ := parsed_of_parse h
  have hcall := hparsed.call
  unfold parseCall at hcall
  split at hcall
  next inside hopen =>
    rw [hraw, hcut, hopen, List.append_assoc, ← List.append_assoc]
    intro hdash
    rcases List.mem_append.mp (takeWhile_append_subset (by simp) hdash) with hdash | hdash
    · exact hblank hfront hdash
    · exact hname hdash
  next =>
    -- Without a call the indices are all that is left behind the name.
    have hrest : (trim raw.toList).dropWhile isNameChar = rest :=
      (Prod.mk.inj (Except.ok.inj hcall)).2
    have hindices := dash_not_mem_of_parseIndices hparsed.indices
    intro hdash
    have hmem := List.takeWhile_subset _ hdash
    rw [hraw, hcut, hrest] at hmem
    simp only [List.mem_append] at hmem
    rcases hmem with hmem | (hmem | hmem) | hmem
    · exact hblank hfront hmem
    · exact hname hmem
    · exact hindices hmem
    · exact hblank hback hmem

/-- A segment begins with its name. -/
theorem isNameChar_of_parse {path : String} {c : Char} {cs : List Char} {s : Segment}
    (hc : isBlank c = false) (h : parse path (String.ofList (c :: cs)) = .ok s) :
    isNameChar c = true := by
  obtain ⟨rest, hparsed⟩ := parsed_of_parse h
  obtain ⟨ds, htrim⟩ := Text.exists_trim_cons hc cs
  have hname := hparsed.nonempty
  rw [hparsed.name, String.toList_ofList, htrim] at hname
  by_contra hletter
  exact hname (List.takeWhile_cons_of_neg hletter)

/-- What no piece has before a parenthesis the text does not have before one. -/
theorem dash_not_mem_of_pieces {n : Nesting} {cs : List Char} {ps : List (List Char)}
    (h : pieces n cs = .ok ps) (hps : ∀ p ∈ ps, '-' ∉ p.takeWhile (· != '(')) :
    '-' ∉ cs.takeWhile (· != '(') := by
  induction cs generalizing n ps with
  | nil => exact List.not_mem_nil
  | cons c cs ih =>
    by_cases hc : n = .start ∧ c = '.'
    · obtain ⟨rfl, rfl⟩ := hc
      obtain ⟨rest, hrest, rfl⟩ := pieces_dot_eq_ok.mp h
      have hlater := ih hrest fun p hp => hps p (List.mem_cons_of_mem _ hp)
      rw [List.takeWhile_cons_of_pos (by decide), List.mem_cons, not_or]
      exact ⟨by decide, hlater⟩
    · obtain ⟨n', p, rest, -, hrest, rfl⟩ := (pieces_cons_eq_ok hc).mp h
      rw [List.forall_mem_cons] at hps
      by_cases hopen : c = '('
      · rw [hopen, List.takeWhile_cons_of_neg (by decide)]
        exact List.not_mem_nil
      · rw [List.takeWhile_cons_of_pos (by simpa using hopen)] at hps ⊢
        rw [List.mem_cons, not_or] at hps ⊢
        exact ⟨hps.1.1, ih hrest (List.forall_mem_cons.mpr ⟨hps.1.2, hps.2⟩)⟩

end Segment

namespace Directive

open Text (isBlank trim)

/-! ### Paths behind directives -/

/-- Whether a text has the syntax of a path and no blanks around it. -/
structure IsPath (text : String) : Prop where
  trimmed : trim text.toList = text.toList
  valid : Expression.checkSyntax text = .ok ()

variable {text : String}

theorem IsPath.dash_not_mem (h : IsPath text) : '-' ∉ text.toList.takeWhile (· != '(') := by
  obtain ⟨raws, hraws, hsegments⟩ := Expression.checkSyntax_eq_ok.mp h.valid
  obtain ⟨ps, hps, -, rfl⟩ := Segment.split_eq_ok.mp hraws
  apply Segment.dash_not_mem_of_pieces hps
  intro p hp
  obtain ⟨segment, hsegment⟩ := hsegments _ (List.mem_map_of_mem hp)
  have hdash := Segment.dash_not_mem_of_parse hsegment
  rwa [String.toList_ofList] at hdash

/-- Before every dash in a path a call is opened. -/
theorem IsPath.call_of_dash (h : IsPath text) {front back : List Char}
    (htext : text.toList = front ++ '-' :: back) : '(' ∈ front := by
  by_contra hcall
  have hfront : ∀ c ∈ front, (c != '(') = true := by
    intro c hc
    rw [bne_iff_ne]
    rintro rfl
    exact hcall hc
  apply h.dash_not_mem
  rw [htext, List.takeWhile_append_of_pos hfront, List.takeWhile_cons_of_pos (by decide)]
  exact List.mem_append_right front List.mem_cons_self

theorem IsPath.exists_head (h : IsPath text) :
    ∃ c cs, text.toList = c :: cs ∧ Segment.isNameChar c = true := by
  obtain ⟨raws, hraws, hsegments⟩ := Expression.checkSyntax_eq_ok.mp h.valid
  obtain ⟨ps, hps, hblank, rfl⟩ := Segment.split_eq_ok.mp hraws
  have hsolid : text.toList ≠ [] := by
    rw [← h.trimmed]
    exact Segment.trim_ne_nil_of_split hraws
  obtain ⟨c, cs, htext⟩ := List.exists_cons_of_ne_nil hsolid
  have hc : isBlank c = false := by
    by_contra hblank
    rw [Bool.not_eq_false] at hblank
    have htrimmed := h.trimmed
    rw [htext, Text.trim_cons_blank hblank] at htrimmed
    have hlength := Text.length_trim_le cs
    rw [htrimmed, List.length_cons] at hlength
    omega
  refine ⟨c, cs, htext, ?_⟩
  rw [htext] at hps
  -- The first piece begins where the text does, or it would be empty.
  by_cases hdot : Segment.Nesting.start = .start ∧ c = '.'
  · obtain ⟨-, rfl⟩ := hdot
    obtain ⟨rest, -, rfl⟩ := Segment.pieces_dot_eq_ok.mp hps
    exact absurd rfl (hblank [] List.mem_cons_self)
  · obtain ⟨n, p, rest, -, -, rfl⟩ := (Segment.pieces_cons_eq_ok hdot).mp hps
    obtain ⟨segment, hsegment⟩ := hsegments (String.ofList (c :: p)) List.mem_cons_self
    exact Segment.isNameChar_of_parse hc hsegment

/-- A path does not begin with a dash, so not with a marker either. -/
theorem IsPath.not_dash_isPrefix (h : IsPath text) (cs : List Char) :
    ¬('-' :: cs <+: text.toList) := by
  rintro ⟨back, hback⟩
  have htext : text.toList = [] ++ '-' :: (cs ++ back) := hback.symm
  cases h.call_of_dash htext

/-- Whether a marker stands behind a blank. -/
def MarksInside (marker : String) (text : String) : Prop :=
  ∃ b, isBlank b = true ∧ b :: marker.toList <:+: text.toList

theorem afterMarker?_eq_none_iff_marksInside {marker : String} {boundary : Bool}
    (hne : marker.toList ≠ []) (hsolid : marker.toList.any isBlank = false)
    (hhead : ¬marker.toList <+: text.toList) :
    afterMarker? marker.toList 0 boundary text.toList = none ↔ ¬MarksInside marker text := by
  rw [afterMarker?_eq_none hne fun c hc => Bool.eq_false_iff.mpr (List.any_eq_false.mp hsolid c hc)]
  constructor
  · rintro h ⟨b, hb, front, back, htext⟩
    have hends : EndsAtBoundary boundary (front ++ [b]) := by
      rw [EndsAtBoundary, List.getLast?_concat]
      exact hb
    refine h (front ++ [b]) back ?_ (Nat.zero_le _) hends
    rw [← htext, List.append_assoc, List.append_assoc]
    rfl
  · intro h front back htext _ hends
    rcases List.eq_nil_or_concat' front with rfl | ⟨front, b, rfl⟩
    · exact hhead ⟨back, htext.symm⟩
    · rw [EndsAtBoundary, List.getLast?_concat] at hends
      refine h ⟨b, hends, front, back, ?_⟩
      rw [htext, List.append_assoc, List.append_assoc]
      rfl

theorem IsPath.find?_eq_none (h : IsPath text) {marker : String} {tail : List Char}
    (hmarker : marker.toList = '-' :: tail) (hsolid : marker.toList.any isBlank = false) :
    find? text marker = none ↔ ¬MarksInside marker text := by
  have hhead : ¬marker.toList <+: text.toList := by
    rw [hmarker]
    exact h.not_dash_isPrefix tail
  have hne : marker.toList ≠ [] := by simp [hmarker]
  rw [find?, Option.map_eq_none_iff]
  exact afterMarker?_eq_none_iff_marksInside hne hsolid hhead

/-- A path alone is read as it is exactly if no marker stands in it behind a blank. -/
theorem parse_bare (h : IsPath text) : parse text = .ok (.fromContext text) ↔
    ¬MarksInside typeMarker text ∧ ¬MarksInside pathMarker text := by
  have htype : find? text typeMarker = none ↔ _ := h.find?_eq_none rfl (by decide)
  have hpath : find? text pathMarker = none ↔ _ := h.find?_eq_none rfl (by decide)
  rw [← htype, ← hpath, parse]
  cases htype : find? text typeMarker with
  | some typeName =>
    refine iff_of_false (fun hparse => ?_) nofun
    cases hpath : find? text pathMarker with
    | none =>
      rw [hpath] at hparse
      cases hparse
    | some path =>
      rw [hpath] at hparse
      dsimp only at hparse
      split at hparse
      · cases hparse
      · cases hparse
  | none =>
    cases hpath : find? text pathMarker with
    | none =>
      refine iff_of_true ?_ ⟨rfl, rfl⟩
      dsimp only
      rw [h.trimmed, String.ofList_toList]
    | some path =>
      refine iff_of_false (fun hparse => ?_) nofun
      have hshort := length_of_find? (by decide) hpath
      dsimp only at hparse
      split at hparse
      · cases hparse
      · cases hparse
        exact lt_irrefl _ hshort

theorem find?_type_marked (h : IsPath text) :
    find? ("-p:" ++ text) typeMarker = none ↔ ¬MarksInside typeMarker text := by
  have hpass : afterMarker? typeMarker.toList 0 true ("-p:" ++ text).toList =
      afterMarker? typeMarker.toList 0 false text.toList := by
    rw [String.toList_append]
    rfl
  rw [find?, Option.map_eq_none_iff, hpass]
  exact afterMarker?_eq_none_iff_marksInside (by decide) (by decide) (h.not_dash_isPrefix _)

theorem find?_path_marked (text : String) :
    find? ("-p:" ++ text) pathMarker = some (String.ofList (trim (untilDash text.toList))) := by
  have hfront :
      afterMarker? pathMarker.toList 0 true ("-p:" ++ text).toList = some text.toList := by
    rw [String.toList_append]
    rfl
  rw [find?, hfront, Option.map_some]

/-- The value is the path exactly if nothing is cut off. -/
theorem IsPath.trim_untilDash (h : IsPath text) :
    String.ofList (trim (untilDash text.toList)) = text ↔ ¬[' ', '-'] <:+: text.toList := by
  rw [← untilDash_eq_self]
  constructor
  · intro htrim
    have hleads := untilDash_isPrefix text.toList
    have hlength := Text.length_trim_le (untilDash text.toList)
    have hvalue := congrArg (·.toList.length) htrim
    simp only [String.toList_ofList] at hvalue
    exact hleads.eq_of_length_le (by omega)
  · intro huntil
    rw [huntil, h.trimmed, String.ofList_toList]

/-- A path behind `-p:` is read as it is exactly if no type marker stands in it behind a blank and
no dash behind a space. -/
theorem parse_marked (h : IsPath text) : parse ("-p:" ++ text) = .ok (.fromContext text) ↔
    ¬MarksInside typeMarker text ∧ ¬[' ', '-'] <:+: text.toList := by
  have hne : text.isEmpty = false := by
    apply Bool.eq_false_iff.mpr
    intro hempty
    have hvalid := h.valid
    rw [String.isEmpty_iff.mp hempty] at hvalid
    cases hvalid
  rw [← find?_type_marked h, ← h.trim_untilDash, parse, find?_path_marked]
  cases htype : find? ("-p:" ++ text) typeMarker with
  | some typeName =>
    refine iff_of_false (fun hparse => ?_) nofun
    dsimp only at hparse
    split at hparse
    · cases hparse
    · cases hparse
  | none =>
    dsimp only
    constructor
    · intro hparse
      split at hparse
      · cases hparse
      · exact ⟨rfl, Directive.fromContext.inj (Except.ok.inj hparse)⟩
    · rintro ⟨-, hvalue⟩
      rw [hvalue, hne, if_neg Bool.false_ne_true]

end Directive

/-! ### Evaluation -/

namespace Expression

/-- Whether two expressions evaluate to the same and leave the same heap, where each names its own
text if it does not resolve. -/
structure EvaluateAlike (ts : TypeSystem) (e₁ e₂ : Expression) : Prop where
  error : ∀ c, (e₁.error? ts c).1.1 = (e₂.error? ts c).1.1
  resolved : ∀ context c h, (e₁.error? ts c).1.1 = none →
    e₁.outcome ts context c h = e₂.outcome ts context c h
  failed : ∀ context c h message, (e₁.error? ts c).1.1 = some message →
    e₁.outcome ts context c h = (.error (.invalidExpression e₁.text message), h) ∧
    e₂.outcome ts context c h = (.error (.invalidExpression e₂.text message), h)

variable {ts : TypeSystem} {e e₁ e₂ : Expression} {c c' : PathCompiler}

theorem error?_of_error (hdynamic : e.isLiteral = false) (hmemo : e.memo = none) {err : Error}
    (h : e.resolution ts c = (.error err, c')) : (e.error? ts c).1.1 = some err.message := by
  rw [error?, hdynamic, if_neg Bool.false_ne_true, bind_apply, resolve_fresh hmemo h]
  rfl

theorem error?_of_ok (hdynamic : e.isLiteral = false) (hmemo : e.memo = none) {r : Resolution}
    (h : e.resolution ts c = (.ok r, c')) : (e.error? ts c).1.1 = none := by
  rw [error?, hdynamic, if_neg Bool.false_ne_true, bind_apply, resolve_fresh hmemo h]
  rfl

/-- Expressions that resolve alike find the same evaluators. -/
theorem found_congr (hmemo₁ : e₁.memo = none) (hmemo₂ : e₂.memo = none) {r : Resolution}
    (h₁ : e₁.resolution ts c = (.ok r, c')) (h₂ : e₂.resolution ts c = (.ok r, c')) (ty : Ty) :
    e₁.found ts ty c = e₂.found ts ty c := by
  cases r with
  | ready x => rw [found_of_ready hmemo₁ h₁, found_of_ready hmemo₂ h₂]
  | perContext path => rw [found_of_perContext hmemo₁ h₁, found_of_perContext hmemo₂ h₂]

theorem outcome_congr (hdynamic₁ : e₁.isLiteral = false) (hdynamic₂ : e₂.isLiteral = false)
    {context : Value} {h : Heap}
    (hfound : e₁.found ts (context.typeOf h) c = e₂.found ts (context.typeOf h) c) :
    e₁.outcome ts context c h = e₂.outcome ts context c h := by
  cases hx : e₁.found ts (context.typeOf h) c with
  | error err =>
    rw [outcome_of_not_found hdynamic₁ hx, outcome_of_not_found hdynamic₂ (hfound ▸ hx)]
  | ok x => rw [outcome_of_found hdynamic₁ hx, outcome_of_found hdynamic₂ (hfound ▸ hx)]

/-- What an expression evaluates to depends on its directive and its root only. -/
theorem evaluateAlike_of_directive (hdynamic₁ : e₁.isLiteral = false)
    (hdynamic₂ : e₂.isLiteral = false) (hmemo₁ : e₁.memo = none) (hmemo₂ : e₂.memo = none)
    (hroot : e₁.root? = e₂.root?)
    (hdirective : Directive.parse e₁.source = Directive.parse e₂.source) :
    EvaluateAlike ts e₁ e₂ := by
  have hsame (c : PathCompiler) : e₂.resolution ts c = e₁.resolution ts c := by
    rw [resolution, resolution, hdirective, hroot]
  constructor
  · intro c
    rcases hres : e₁.resolution ts c with ⟨err | r, c'⟩
    · rw [error?_of_error hdynamic₁ hmemo₁ hres,
        error?_of_error hdynamic₂ hmemo₂ ((hsame c).trans hres)]
    · rw [error?_of_ok hdynamic₁ hmemo₁ hres, error?_of_ok hdynamic₂ hmemo₂ ((hsame c).trans hres)]
  · intro context c h hnone
    rcases hres : e₁.resolution ts c with ⟨err | r, c'⟩
    · rw [error?_of_error hdynamic₁ hmemo₁ hres] at hnone
      cases hnone
    · apply outcome_congr hdynamic₁ hdynamic₂
      exact found_congr hmemo₁ hmemo₂ hres ((hsame c).trans hres) _
  · intro context c h message hsome
    rcases hres : e₁.resolution ts c with ⟨err | r, c'⟩
    · rw [error?_of_error hdynamic₁ hmemo₁ hres] at hsome
      cases hsome
      have hres₂ := (hsame c).trans hres
      exact ⟨outcome_of_not_found hdynamic₁ (found_of_error hmemo₁ hres),
        outcome_of_not_found hdynamic₂ (found_of_error hmemo₂ hres₂)⟩
    · rw [error?_of_ok hdynamic₁ hmemo₁ hres] at hsome
      cases hsome

theorem new_sentinel (text : String) (root? : Option Ty) (flagGating : Bool) :
    new ("@" ++ text) root? flagGating = ⟨"@" ++ text, false, text, root?, none⟩ := by
  have htrim : Text.trimStart ("@" ++ text).toList = '@' :: text.toList := by
    rw [String.toList_append]
    rfl
  have hsentinel : ('@' == sentinel) = true := rfl
  unfold new
  rw [htrim]
  dsimp only
  rw [if_pos hsentinel, String.ofList_toList]

theorem new_ungated {text : String} {c : Char} {cs : List Char} (htext : text.toList = c :: cs)
    (hblank : Text.isBlank c = false) (hc : c ≠ sentinel) (root? : Option Ty) :
    new text root? false = ⟨text, false, text, root?, none⟩ := by
  have htrim : Text.trimStart (c :: cs) = c :: cs :=
    Text.trimStart_eq_self fun _ hx => (Option.some.inj hx) ▸ hblank
  unfold new
  rw [htext, htrim]
  dsimp only
  rw [if_neg (by simpa using hc)]

end Expression

namespace Directive

open Expression (EvaluateAlike new_sentinel new_ungated evaluateAlike_of_directive)

variable {text : String}

/-- A path that is read alike alone and behind `-p:` evaluates alike, with the sentinel or without
it where that is not needed. -/
theorem IsPath.evaluateAlike (h : IsPath text) (hsame : parse text = parse ("-p:" ++ text))
    (ts : TypeSystem) (root? : Option Ty) (flagGating : Bool) :
    EvaluateAlike ts (.new ("@" ++ text) root? flagGating)
      (.new ("@" ++ ("-p:" ++ text)) root? flagGating) ∧
    EvaluateAlike ts (.new text root? false) (.new ("-p:" ++ text) root? false) := by
  obtain ⟨c, cs, htext, hc⟩ := h.exists_head
  have hsentinel : c ≠ Expression.sentinel := by
    rintro rfl
    cases hc
  have hbehind : ("-p:" ++ text).toList = '-' :: 'p' :: ':' :: text.toList := by
    rw [String.toList_append]
    rfl
  rw [new_sentinel, new_sentinel,
    new_ungated htext (Segment.isBlank_of_isNameChar hc) hsentinel,
    new_ungated hbehind (by decide) (by decide)]
  exact ⟨evaluateAlike_of_directive rfl rfl rfl rfl rfl hsame,
    evaluateAlike_of_directive rfl rfl rfl rfl rfl hsame⟩

/-- A path alone is read as it is exactly if no marker stands in it behind a blank, and a path
behind `-p:` exactly if no type marker stands in it behind a blank and no dash behind a space. A
dash stands only behind the parenthesis of a call, so a path without calls is read as it is either
way. A path that is evaluates alike either way. -/
theorem parse_path (h : IsPath text) :
    (parse text = .ok (.fromContext text) ↔
      ¬MarksInside typeMarker text ∧ ¬MarksInside pathMarker text) ∧
    (parse ("-p:" ++ text) = .ok (.fromContext text) ↔
      ¬MarksInside typeMarker text ∧ ¬[' ', '-'] <:+: text.toList) ∧
    (∀ front back, text.toList = front ++ '-' :: back → '(' ∈ front) ∧
    ('(' ∉ text.toList →
      parse text = .ok (.fromContext text) ∧ parse ("-p:" ++ text) = .ok (.fromContext text)) ∧
    (parse text = .ok (.fromContext text) → parse ("-p:" ++ text) = .ok (.fromContext text) →
      ∀ ts root? flagGating,
        EvaluateAlike ts (.new ("@" ++ text) root? flagGating)
          (.new ("@" ++ ("-p:" ++ text)) root? flagGating) ∧
        EvaluateAlike ts (.new text root? false) (.new ("-p:" ++ text) root? false)) := by
  refine ⟨parse_bare h, parse_marked h, fun front back => h.call_of_dash, fun hcall => ?_,
    fun hbare hmarked => h.evaluateAlike (hbare.trans hmarked.symm)⟩
  have hdash : '-' ∉ text.toList := by
    intro hmem
    obtain ⟨front, back, htext⟩ := List.append_of_mem hmem
    apply hcall
    rw [htext]
    exact List.mem_append_left _ (h.call_of_dash htext)
  have hmarks (marker : String) (hmarker : '-' ∈ marker.toList) : ¬MarksInside marker text := by
    rintro ⟨b, -, hinside⟩
    exact hdash (hinside.subset (List.mem_cons_of_mem b hmarker))
  have hcut : ¬[' ', '-'] <:+: text.toList := by
    intro hinside
    exact hdash (hinside.subset (List.mem_cons_of_mem ' ' List.mem_cons_self))
  have htype := hmarks typeMarker List.mem_cons_self
  have hpath := hmarks pathMarker List.mem_cons_self
  exact ⟨(parse_bare h).mpr ⟨htype, hpath⟩, (parse_marked h).mpr ⟨htype, hcut⟩⟩

/-- A negative argument behind a space ends the value of `-p:`, and a quoted text may be taken for a
directive. -/
theorem parse_path_cut :
    IsPath "Move(1, -2)" ∧
    parse ("-p:" ++ "Move(1, -2)") = .ok (.fromContext "Move(1,") ∧
    parse ("-p:" ++ "Move(1, -2)") ≠ .ok (.fromContext "Move(1, -2)") ∧
    IsPath "Find(\" -t:x\")" ∧
    parse "Find(\" -t:x\")" ≠ .ok (.fromContext "Find(\" -t:x\")") := by
  have hmove : parse ("-p:" ++ "Move(1, -2)") = .ok (.fromContext "Move(1,") := rfl
  have hfind : parse "Find(\" -t:x\")" =
      .error (.parse "Find(\" -t:x\")" "`-t:` requires a `-p:` path") := rfl
  refine ⟨⟨rfl, rfl⟩, hmove, ?_, ⟨rfl, rfl⟩, ?_⟩
  · rw [hmove]
    exact fun h => absurd (Directive.fromContext.inj (Except.ok.inj h)) (by decide)
  · rw [hfind]
    exact nofun

/-- A negative argument is read as it is without a space before it, and so are blanks around a dot. -/
theorem parse_path_score :
    IsPath "Move(1,-2) . Score[0]" ∧
    (∃ front back, "Move(1,-2) . Score[0]".toList = front ++ '-' :: back ∧ '(' ∈ front) ∧
    parse "Move(1,-2) . Score[0]" = .ok (.fromContext "Move(1,-2) . Score[0]") ∧
    parse ("-p:" ++ "Move(1,-2) . Score[0]") = .ok (.fromContext "Move(1,-2) . Score[0]") ∧
    EvaluateAlike CompiledPath.Sample.catalogTypes (.new "Move(1,-2) . Score[0]" none false)
      (.new ("-p:" ++ "Move(1,-2) . Score[0]") none false) := by
  have hpath : IsPath "Move(1,-2) . Score[0]" := ⟨rfl, rfl⟩
  obtain ⟨hbare, hmarked, hdash, -, halike⟩ := parse_path hpath
  -- Either marker has a letter that is not in the text.
  have hmarks {marker : String} (c : Char) (hc : c ∈ marker.toList)
      (htext : c ∉ "Move(1,-2) . Score[0]".toList) :
      ¬MarksInside marker "Move(1,-2) . Score[0]" := by
    rintro ⟨b, -, hinside⟩
    exact htext (hinside.subset (List.mem_cons_of_mem b hc))
  have htype := @hmarks typeMarker 't' (by decide) (by decide)
  have hpathMark := @hmarks pathMarker 'p' (by decide) (by decide)
  have hread := hbare.mpr ⟨htype, hpathMark⟩
  have hread' := hmarked.mpr ⟨htype, by simp [List.infix_cons_iff]⟩
  exact ⟨hpath, ⟨_, _, rfl, hdash "Move(1,".toList "2) . Score[0]".toList rfl⟩, hread, hread',
    (halike hread hread' CompiledPath.Sample.catalogTypes none false).2⟩

end Directive

end Introspect

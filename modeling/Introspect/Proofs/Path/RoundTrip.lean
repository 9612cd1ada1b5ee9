import Introspect.Proofs.Path.Literal

/-!
Paths as they are written. A written segment closes what it opens, so a path that is joined of
segments splits into them again, and each is parsed as the segment that it was written for. What is
parsed has a name and indices that can be written.
-/

namespace Introspect.Segment

open Text (Quote trim)
open Literal (isBracket isWritten writtenArgs)

/-- Whether the name is one or more letters, numbers and underscores and starts with no digit, and
the indices are words. -/
structure WellNamed (s : Segment) : Prop where
  nonempty : s.name.toList ≠ []
  chars : ∀ c ∈ s.name.toList, isNameChar c = true
  head : ∀ c ∈ s.name.toList.head?, c.isDigit = false
  indices : ∀ index ∈ s.indices, index < UInt64.size

/-- Whether the arguments of the call, if there is one, are written too. -/
structure IsWritten (s : Segment) : Prop extends WellNamed s where
  args : ∀ args, s.args? = some args → ∀ v ∈ args, isWritten v = true

/-! ### Splitting -/

theorem next?_inside {d : Nat} {q : Quote} {c : Char} (hc : q = .outside → isBracket c = false) :
    (⟨d + 1, q⟩ : Nesting).next? c = some ⟨d + 1, q.next c⟩ := by
  unfold Nesting.next?
  split
  next => rfl
  next hq =>
    have hplain := hc (not_not.mp hq)
    simp only [isBracket, Bool.or_eq_false_iff] at hplain
    simp [hplain.1.1.1, hplain.1.1.2, hplain.1.2, hplain.2]

/-- Within brackets a text without other brackets belongs to the piece that it stands in. -/
theorem pieces_append_inside {d : Nat} {q : Quote} {cs ds p : List Char} {ps : List (List Char)}
    (hcs : Quote.Avoids isBracket q cs) (hds : pieces ⟨d + 1, q.after cs⟩ ds = .ok (p :: ps)) :
    pieces ⟨d + 1, q⟩ (cs ++ ds) = .ok ((cs ++ p) :: ps) := by
  induction cs generalizing q with
  | nil => exact hds
  | cons c cs ih =>
    have hdot : ¬((⟨d + 1, q⟩ : Nesting) = .start ∧ c = '.') := by
      rintro ⟨hstart, -⟩
      cases hstart
    exact (pieces_cons_eq_ok hdot).mpr ⟨_, _, _, next?_inside hcs.1, ih hcs.2 hds, rfl⟩

theorem pieces_bracketed {o c : Char} (ho : o = '(' ∨ o = '[') (hc : c = ')' ∨ c = ']')
    {cs ds p : List Char} {ps : List (List Char)} (hafter : Quote.outside.after cs = .outside)
    (havoids : Quote.Avoids isBracket .outside cs) (hds : pieces .start ds = .ok (p :: ps)) :
    pieces .start (o :: (cs ++ c :: ds)) = .ok ((o :: (cs ++ c :: p)) :: ps) := by
  have hopen : Nesting.start.next? o = some ⟨1, .outside⟩ := by
    rcases ho with rfl | rfl <;> rfl
  have hclose : (⟨1, .outside⟩ : Nesting).next? c = some .start := by
    rcases hc with rfl | rfl <;> rfl
  have hinner : pieces ⟨1, .outside⟩ (c :: ds) = .ok ((c :: p) :: ps) :=
    (pieces_cons_eq_ok (by simp [Nesting.start])).mpr ⟨_, _, _, hclose, hds, rfl⟩
  have hdot : ¬(Nesting.start = .start ∧ o = '.') := by
    rcases ho with rfl | rfl <;> simp
  refine (pieces_cons_eq_ok hdot).mpr ⟨_, _, _, hopen, ?_, rfl⟩
  apply pieces_append_inside havoids
  rw [hafter]
  exact hinner

theorem pieces_append_name {name ds p : List Char} {ps : List (List Char)}
    (hname : ∀ c ∈ name, isNameChar c = true) (hds : pieces .start ds = .ok (p :: ps)) :
    pieces .start (name ++ ds) = .ok ((name ++ p) :: ps) := by
  induction name with
  | nil => exact hds
  | cons c name ih =>
    rw [List.forall_mem_cons] at hname
    have hne (d : Char) (hd : isNameChar d = false) : c ≠ d := by
      rintro rfl
      rw [hname.1] at hd
      cases hd
    have hdot : ¬(Nesting.start = .start ∧ c = '.') := fun h => hne '.' (by decide) h.2
    have hnext : Nesting.start.next? c = some .start := by
      simp [Nesting.next?, Nesting.start, hne '(' (by decide), hne ')' (by decide),
        hne '[' (by decide), hne ']' (by decide)]
    exact (pieces_cons_eq_ok hdot).mpr ⟨_, _, _, hnext, ih hname.2, rfl⟩

/-- The digits of an index leave everything as it is. -/
theorem outside_of_toDigits (index : Nat) :
    Quote.outside.after (Nat.toDigits 10 index) = .outside ∧
      Quote.Avoids isBracket .outside (Nat.toDigits 10 index) := by
  apply Quote.outside_of_plain
  · intro c hc
    by_contra hmark
    have hdigit := Text.isDigit_of_mem_toDigits hc
    simp only [Quote.isMark, Bool.not_eq_false, Bool.or_eq_true, beq_iff_eq] at hmark
    rcases hmark with rfl | rfl <;> cases hdigit
  · intro c hc
    by_contra hbracket
    have hdigit := Text.isDigit_of_mem_toDigits hc
    simp only [isBracket, Bool.not_eq_false, Bool.or_eq_true, beq_iff_eq] at hbracket
    rcases hbracket with ((rfl | rfl) | rfl) | rfl <;> cases hdigit

theorem flatMap_writtenIndex_cons (index : Nat) (indices : List Nat) :
    (index :: indices).flatMap writtenIndex =
      '[' :: (Nat.toDigits 10 index ++ ']' :: indices.flatMap writtenIndex) := by
  rw [List.flatMap_cons, writtenIndex, List.cons_append, List.cons_append, List.append_assoc]
  rfl

theorem pieces_indices (indices : List Nat) :
    pieces .start (indices.flatMap writtenIndex) = .ok [indices.flatMap writtenIndex] := by
  induction indices with
  | nil => rfl
  | cons index indices ih =>
    obtain ⟨hafter, havoids⟩ := outside_of_toDigits index
    rw [flatMap_writtenIndex_cons]
    exact pieces_bracketed (Or.inr rfl) (Or.inr rfl) hafter havoids ih

/-- A written segment is one piece. -/
theorem pieces_written {s : Segment} (hs : s.IsWritten) :
    pieces .start s.written = .ok [s.written] := by
  apply pieces_append_name hs.chars
  cases hargs : s.args? with
  | none => exact pieces_indices s.indices
  | some args =>
    obtain ⟨hafter, havoids⟩ := Literal.outside_of_writtenArgs (hs.args args hargs)
    rw [writtenCall, List.cons_append, List.cons_append, List.append_assoc]
    exact pieces_bracketed (Or.inl rfl) (Or.inl rfl) hafter havoids (pieces_indices s.indices)

/-! ### Calls and indices -/

theorem cutCall_append {q : Quote} {cs : List Char} (ds : List Char)
    (hcs : Quote.Avoids isBracket q cs) (hafter : q.after cs = .outside) :
    cutCall 0 q (cs ++ ')' :: ds) = some (cs, ds) := by
  induction cs generalizing q with
  | nil =>
    obtain rfl : q = .outside := hafter
    rfl
  | cons c cs ih =>
    have hbracket (d : Char) (hd : isBracket d = true) :
        (decide (q = .outside) && c == d) = false := by
      by_contra hboth
      simp only [Bool.not_eq_false, Bool.and_eq_true, decide_eq_true_eq, beq_iff_eq] at hboth
      obtain ⟨hq, rfl⟩ := hboth
      rw [hcs.1 hq] at hd
      cases hd
    have hrest := ih hcs.2 hafter
    rw [List.cons_append, cutCall, hbracket '(' rfl, hbracket ')' rfl]
    simp [hrest]

theorem parseCall_written {args? : Option (List Value)}
    (hargs : ∀ args, args? = some args → ∀ v ∈ args, isWritten v = true) (path raw : String)
    (indices : List Nat) :
    parseCall path raw (writtenCall args? ++ indices.flatMap writtenIndex) =
      .ok (args?, indices.flatMap writtenIndex) := by
  cases args? with
  | none =>
    cases indices with
    | nil => rfl
    | cons index indices => rfl
  | some args =>
    have hargs := hargs args rfl
    obtain ⟨hafter, havoids⟩ := Literal.outside_of_writtenArgs hargs
    rw [writtenCall, List.cons_append, List.cons_append, List.append_assoc, parseCall]
    simp only [List.cons_append, List.nil_append, cutCall_append _ havoids hafter,
      Literal.parseArgs_writtenArgs hargs]

theorem trim_toDigits (index : Nat) : trim (Nat.toDigits 10 index) = Nat.toDigits 10 index := by
  have hblank (c : Char) (hc : c ∈ Nat.toDigits 10 index) : Text.isBlank c = false := by
    apply Text.isBlank_of_isAlphanumeric
    apply Text.isAlphanumeric_of_isAlphanum
    rw [Char.isAlphanum, Text.isDigit_of_mem_toDigits hc, Bool.or_true]
  exact Text.trim_eq_self (fun c hc => hblank c (List.mem_of_head? hc))
    fun c hc => hblank c (List.mem_of_getLast? hc)

theorem parseIndices_written {indices : List Nat}
    (hindices : ∀ index ∈ indices, index < UInt64.size)
    (path raw : String) {fuel : Nat} (hfuel : indices.length ≤ fuel) :
    parseIndices path raw fuel (indices.flatMap writtenIndex) = .ok (indices, []) := by
  induction indices generalizing fuel with
  | nil => cases fuel <;> rfl
  | cons index indices ih =>
    rw [List.forall_mem_cons] at hindices
    rw [List.length_cons] at hfuel
    obtain ⟨fuel, rfl⟩ : ∃ k, fuel = k + 1 := ⟨fuel - 1, by omega⟩
    have hdigits (c : Char) (hc : c ∈ Nat.toDigits 10 index) : (c != ']') = true := by
      rw [bne_iff_ne]
      rintro rfl
      cases Text.isDigit_of_mem_toDigits hc
    have htake (rest : List Char) :
        (Nat.toDigits 10 index ++ ']' :: rest).takeWhile (· != ']') = Nat.toDigits 10 index := by
      rw [List.takeWhile_append_of_pos hdigits, List.takeWhile_cons_of_neg (by decide),
        List.append_nil]
    have hdrop (rest : List Char) :
        (Nat.toDigits 10 index ++ ']' :: rest).dropWhile (· != ']') = ']' :: rest := by
      rw [List.dropWhile_append_of_pos hdigits, List.dropWhile_cons_of_neg (by decide)]
    rw [flatMap_writtenIndex_cons, parseIndices]
    simp only [htake, hdrop, trim_toDigits, Text.unsigned?_toDigits hindices.1,
      ih hindices.2 (show indices.length ≤ fuel by omega)]
    rfl

/-! ### Segments -/

theorem isBlank_of_isNameChar {c : Char} (hc : isNameChar c = true) : Text.isBlank c = false := by
  rw [isNameChar, Bool.or_eq_true, beq_iff_eq] at hc
  rcases hc with hc | rfl
  · exact Text.isBlank_of_isAlphanumeric hc
  · decide

/-- What stands behind a name begins and ends with a parenthesis or a bracket. -/
theorem bracketed_suffix (args? : Option (List Value)) (indices : List Nat) :
    (∀ c ∈ (writtenCall args? ++ indices.flatMap writtenIndex).head?, c = '(' ∨ c = '[') ∧
      ∀ c ∈ (writtenCall args? ++ indices.flatMap writtenIndex).getLast?, c = ')' ∨ c = ']' := by
  have hcall : (∀ c ∈ (writtenCall args?).head?, c = '(') ∧
      ∀ c ∈ (writtenCall args?).getLast?, c = ')' := by
    cases args? with
    | none => exact ⟨nofun, nofun⟩
    | some args =>
      rw [writtenCall, List.getLast?_concat]
      exact ⟨fun c hc => (Option.some.inj hc).symm, fun c hc => (Option.some.inj hc).symm⟩
  have hindices : (∀ c ∈ (indices.flatMap writtenIndex).head?, c = '[') ∧
      ∀ c ∈ (indices.flatMap writtenIndex).getLast?, c = ']' := by
    constructor
    · cases indices with
      | nil => exact nofun
      | cons index indices => exact fun c hc => (Option.some.inj hc).symm
    · rcases indices.eq_nil_or_concat with rfl | ⟨front, index, rfl⟩
      · exact nofun
      · rw [List.concat_eq_append, List.flatMap_append, List.flatMap_singleton, writtenIndex,
          ← List.append_assoc, List.getLast?_concat]
        exact fun c hc => (Option.some.inj hc).symm
  constructor
  · intro c hc
    rw [List.head?_append, Option.mem_def, Option.or_eq_some_iff] at hc
    rcases hc with hc | ⟨-, hc⟩
    · exact Or.inl (hcall.1 c hc)
    · exact Or.inr (hindices.1 c hc)
  · intro c hc
    rw [List.getLast?_append, Option.mem_def, Option.or_eq_some_iff] at hc
    rcases hc with hc | ⟨-, hc⟩
    · exact Or.inr (hindices.2 c hc)
    · exact Or.inl (hcall.2 c hc)

theorem trim_segment {s : Segment} (hs : s.WellNamed) : trim s.written = s.written := by
  apply Text.trim_eq_self
  · intro c hc
    rw [written, List.head?_append_of_ne_nil _ hs.nonempty] at hc
    exact isBlank_of_isNameChar (hs.chars c (List.mem_of_head? hc))
  · intro c hc
    rw [written, List.getLast?_append, Option.mem_def, Option.or_eq_some_iff] at hc
    rcases hc with hc | ⟨-, hc⟩
    · rcases (bracketed_suffix s.args? s.indices).2 c hc with rfl | rfl <;> decide
    · exact isBlank_of_isNameChar (hs.chars c (List.mem_of_getLast? hc))

/-- A name ends where its call or its indices begin. -/
theorem name_written {s : Segment} (hs : s.WellNamed) :
    s.written.takeWhile isNameChar = s.name.toList ∧
      s.written.dropWhile isNameChar = writtenCall s.args? ++ s.indices.flatMap writtenIndex := by
  have hhead := (bracketed_suffix s.args? s.indices).1
  rw [written, List.takeWhile_append_of_pos hs.chars, List.dropWhile_append_of_pos hs.chars]
  cases hsuffix : writtenCall s.args? ++ s.indices.flatMap writtenIndex with
  | nil => exact ⟨List.append_nil _, rfl⟩
  | cons c cs =>
    rw [hsuffix] at hhead
    have hc : ¬isNameChar c = true := by
      rcases hhead c rfl with rfl | rfl <;> decide
    rw [List.takeWhile_cons_of_neg hc, List.dropWhile_cons_of_neg hc]
    exact ⟨List.append_nil _, rfl⟩

theorem length_le_length_flatMap_writtenIndex (indices : List Nat) :
    indices.length ≤ (indices.flatMap writtenIndex).length := by
  induction indices with
  | nil => exact Nat.le_refl 0
  | cons index indices ih =>
    rw [flatMap_writtenIndex_cons, List.length_cons, List.length_cons, List.length_append,
      List.length_cons]
    omega

/-- A written segment is parsed as the segment that it was written for. -/
theorem parse_written {s : Segment} (hs : s.IsWritten) (path : String) :
    parse path (String.ofList s.written) = .ok s := by
  obtain ⟨hname, hrest⟩ := name_written hs.toWellNamed
  have hguard : (s.name.toList.isEmpty || s.name.toList.head?.any Char.isDigit) = false := by
    rw [Bool.or_eq_false_iff, List.isEmpty_eq_false_iff, Option.any_eq_false]
    exact ⟨hs.nonempty, fun c hc => by simp [hs.head c hc]⟩
  have hindices (raw : String) := parseIndices_written hs.indices path raw
    (length_le_length_flatMap_writtenIndex s.indices)
  simp only [parse, String.toList_ofList, trim_segment hs.toWellNamed, hname, hrest, hguard,
    Bool.false_eq_true, if_false]
  rw [parseCall_written hs.args, Except.bind_eq_ok]
  refine ⟨_, rfl, Except.bind_eq_ok.mpr ⟨_, hindices _, ?_⟩⟩
  rw [String.ofList_toList]
  rfl

/-! ### What is parsed -/

theorem lt_of_unsigned? {cs : List Char} {n : Nat} (h : Text.unsigned? cs = some n) :
    n < UInt64.size := by
  obtain ⟨-, hn⟩ := Option.filter_eq_some_iff.mp h
  exact of_decide_eq_true hn

theorem lt_of_parseIndices {path raw : String} {fuel : Nat} {cs rest : List Char}
    {indices : List Nat} (h : parseIndices path raw fuel cs = .ok (indices, rest)) :
    ∀ index ∈ indices, index < UInt64.size := by
  induction fuel generalizing cs rest indices with
  | zero =>
    cases h
    exact nofun
  | succ fuel ih =>
    unfold parseIndices at h
    split at h
    next hfuel =>
      cases hfuel
      dsimp only at h
      split at h
      · cases h
      · split at h
        · cases h
        next index hindex =>
          obtain ⟨⟨later, rest'⟩, hlater, h⟩ := Except.bind_eq_ok.mp h
          cases h
          rw [List.forall_mem_cons]
          exact ⟨lt_of_unsigned? hindex, ih hlater⟩
    next =>
      cases h
      exact nofun

/-- What a raw segment consists of: a name, then the call if there is one, and the indices up to the
end, where `rest` is the text of the indices. -/
structure Parsed (path raw : String) (s : Segment) (rest : List Char) : Prop where
  name : s.name.toList = (Text.trim raw.toList).takeWhile isNameChar
  nonempty : s.name.toList ≠ []
  head : ∀ c, s.name.toList.head? = some c → c.isDigit = false
  call : parseCall path (String.ofList (Text.trim raw.toList))
    ((Text.trim raw.toList).dropWhile isNameChar) = .ok (s.args?, rest)
  indices : parseIndices path (String.ofList (Text.trim raw.toList)) rest.length rest =
    .ok (s.indices, [])

theorem parsed_of_parse {path raw : String} {s : Segment} (h : parse path raw = .ok s) :
    ∃ rest, Parsed path raw s rest := by
  simp only [parse] at h
  split at h
  · cases h
  next hguard =>
    obtain ⟨⟨args?, rest⟩, hcall, h⟩ := Except.bind_eq_ok.mp h
    obtain ⟨⟨indices, rest'⟩, hindices, h⟩ := Except.bind_eq_ok.mp h
    simp only [Bool.or_eq_true, List.isEmpty_iff, not_or, Option.any_eq_true, not_exists, not_and,
      Bool.not_eq_true] at hguard
    split at h
    next hend =>
      cases h
      obtain rfl := List.isEmpty_iff.mp hend
      refine ⟨rest, String.toList_ofList, ?_, ?_, hcall, hindices⟩
      · rw [String.toList_ofList]
        exact hguard.1
      · rw [String.toList_ofList]
        exact hguard.2
    next => cases h

/-- Every segment that is parsed has a name and indices that can be written. -/
theorem wellNamed_of_parse {path raw : String} {s : Segment} (h : parse path raw = .ok s) :
    s.WellNamed := by
  obtain ⟨rest, hparsed⟩ := parsed_of_parse h
  refine ⟨hparsed.nonempty, fun c hc => ?_, hparsed.head, lt_of_parseIndices hparsed.indices⟩
  rw [hparsed.name] at hc
  exact List.mem_takeWhile_imp hc

/-! ### Paths -/

theorem split_written {s : Segment} (hs : s.IsWritten) :
    split (String.ofList s.written) = .ok [String.ofList s.written] := by
  refine split_eq_ok.mpr ⟨[s.written], ?_, ?_, rfl⟩
  · rw [String.toList_ofList]
    exact pieces_written hs
  · intro p hp
    rw [List.mem_singleton.mp hp, trim_segment hs.toWellNamed, written]
    exact List.append_ne_nil_of_left_ne_nil hs.nonempty _

/-- A name is written as it is. -/
theorem written_name (name : String) : String.ofList (written ⟨name, none, []⟩) = name := by
  rw [written, writtenCall, List.flatMap_nil, List.append_nil, List.append_nil,
    String.ofList_toList]

theorem isWritten_name {s : Segment} (hs : s.WellNamed) : IsWritten ⟨s.name, none, []⟩ :=
  ⟨⟨hs.nonempty, hs.chars, hs.head, nofun⟩, nofun⟩

theorem split_name {s : Segment} (hs : s.WellNamed) : split s.name = .ok [s.name] := by
  have hsplit := split_written (isWritten_name hs)
  rwa [written_name] at hsplit

theorem parse_name {s : Segment} (hs : s.WellNamed) (path : String) :
    parse path s.name = .ok ⟨s.name, none, []⟩ := by
  have hparse := parse_written (isWritten_name hs) path
  rwa [written_name] at hparse

/-- A path of written segments splits into them. -/
theorem split_join {segments : List Segment} (hne : segments ≠ [])
    (hs : ∀ s ∈ segments, s.IsWritten) :
    split (join segments) = .ok (segments.map fun s => String.ofList s.written) := by
  refine split_intercalate (fun hnil => hne (List.map_eq_nil_iff.mp hnil)) ?_
  exact List.forall_mem_map.mpr fun s hsegment => split_written (hs s hsegment)

/-- Splitting the path that is joined of segments and parsing its pieces gives the segments again,
and whatever is parsed is well named. -/
theorem parse_join :
    (∀ segments : List Segment, segments ≠ [] → (∀ s ∈ segments, s.IsWritten) →
      (split (join segments) >>= fun raws => raws.mapM (parse (join segments))) = .ok segments) ∧
    ∀ (path raw : String) (s : Segment), parse path raw = .ok s → s.WellNamed := by
  refine ⟨fun segments hne hs => ?_, fun path raw s => wellNamed_of_parse⟩
  refine Except.bind_eq_ok.mpr ⟨_, split_join hne hs, Except.mapM_eq_ok.mpr ?_⟩
  rw [List.forall₂_map_left_iff, List.forall₂_same]
  exact fun s hsegment => parse_written (hs s hsegment) (join segments)

/-- A call with a literal of each kind and two indices, and a field of what it gives. -/
def indexedCall : List Segment :=
  [⟨"Get", some [.int (-3), .string "a.b)\"\\", .bool true], [0, 12]⟩, ⟨"x_1", none, []⟩]

/-- The dot, the parenthesis and both marks within the text divide nothing. -/
theorem parse_join_indexedCall :
    join indexedCall = "Get(-3, \"a.b)\\\"\\\\\", true)[0][12].x_1" ∧
      (split (join indexedCall) >>= fun raws => raws.mapM (parse (join indexedCall))) =
        .ok indexedCall ∧
      WellNamed ⟨"x_1", none, []⟩ := by
  have hwritten : ∀ s ∈ indexedCall, s.IsWritten := by
    intro s hs
    rcases List.mem_cons.mp hs with rfl | hs
    · refine ⟨⟨by decide, List.all_eq_true.mp (by decide), ?_, by decide⟩, ?_⟩
      · intro c hc
        cases hc
        decide
      · intro args hargs
        cases hargs
        decide
    · rw [List.mem_singleton.mp hs]
      refine ⟨⟨by decide, List.all_eq_true.mp (by decide), ?_, by decide⟩, nofun⟩
      intro c hc
      cases hc
      decide
  refine ⟨rfl, parse_join.1 indexedCall (List.cons_ne_nil _ _) hwritten, ?_⟩
  exact parse_join.2 "x_1" "x_1" _ rfl

end Introspect.Segment

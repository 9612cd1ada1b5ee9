import Introspect.Path.Printer
import Introspect.Proofs.Path.Splitting

/-!
Literals as they are written. A written literal is over where it ends: no reader of quotes is inside
one behind it, and none meets a comma, a parenthesis or a bracket in it but within quotes. So it is
read back as the value that it was written for, alone and in the arguments of a call.
-/

namespace Introspect

namespace Text

/-! ### Trimming -/

theorem trimStart_eq_self {cs : List Char} (hhead : ∀ c ∈ cs.head?, isBlank c = false) :
    trimStart cs = cs := by
  cases cs with
  | nil => rfl
  | cons c cs =>
    apply List.dropWhile_cons_of_neg
    simp [hhead c rfl]

theorem trim_eq_self {cs : List Char} (hhead : ∀ c ∈ cs.head?, isBlank c = false)
    (hlast : ∀ c ∈ cs.getLast?, isBlank c = false) : trim cs = cs := by
  rw [← List.head?_reverse] at hlast
  have hend : cs.reverse.dropWhile isBlank = cs.reverse := trimStart_eq_self hlast
  rw [trim, trimStart_eq_self hhead, trimEnd, hend, List.reverse_reverse]

theorem trim_cons_blank {c : Char} (hc : isBlank c = true) (cs : List Char) :
    trim (c :: cs) = trim cs := by
  rw [trim, trimStart, List.dropWhile_cons_of_pos hc]
  rfl

/-- Trimming takes away blanks around a text and nothing else. -/
theorem exists_trim (cs : List Char) : ∃ front back, (∀ c ∈ front, isBlank c = true) ∧
    (∀ c ∈ back, isBlank c = true) ∧ cs = front ++ (trim cs ++ back) := by
  refine ⟨cs.takeWhile isBlank, ((trimStart cs).reverse.takeWhile isBlank).reverse,
    fun c hc => List.mem_takeWhile_imp hc,
    fun c hc => List.mem_takeWhile_imp (List.mem_reverse.mp hc), ?_⟩
  rw [trim, trimEnd, ← List.reverse_append, List.takeWhile_append_dropWhile, List.reverse_reverse]
  exact List.takeWhile_append_dropWhile.symm

theorem length_trim_le (cs : List Char) : (trim cs).length ≤ cs.length := by
  obtain ⟨front, back, -, -, htrim⟩ := exists_trim cs
  have hlength := congrArg List.length htrim
  simp only [List.length_append] at hlength
  omega

theorem exists_trim_cons {c : Char} (hc : isBlank c = false) (cs : List Char) :
    ∃ ds, trim (c :: cs) = c :: ds := by
  obtain ⟨front, back, hfront, hback, htrim⟩ := exists_trim (c :: cs)
  cases front with
  | cons d front =>
    obtain ⟨rfl, -⟩ := List.cons.inj htrim
    rw [hfront c List.mem_cons_self] at hc
    cases hc
  | nil =>
    cases hcut : trim (c :: cs) with
    | nil =>
      rw [hcut, List.nil_append, List.nil_append] at htrim
      rw [hback c (htrim ▸ List.mem_cons_self)] at hc
      cases hc
    | cons d ds =>
      rw [hcut] at htrim
      obtain ⟨rfl, -⟩ := List.cons.inj htrim
      exact ⟨ds, rfl⟩

/-- The blanks beyond ASCII, both ends included. -/
def blankRanges : List (Nat × Nat) :=
  [(0x85, 0x85), (0xA0, 0xA0), (0x1680, 0x1680), (0x2000, 0x200A), (0x2028, 0x2029),
    (0x202F, 0x202F), (0x205F, 0x205F), (0x3000, 0x3000)]

theorem disjoint_blankRanges : (alphanumericRanges.all fun r => blankRanges.all fun b =>
    b.2 < r.1 || r.2 < b.1) = true := by
  decide +kernel

/-- No letter or number is a blank. -/
theorem isBlank_of_isAlphanumeric {c : Char} (h : isAlphanumeric c = true) : isBlank c = false := by
  by_contra hblank
  simp only [isBlank, Bool.not_eq_false, Bool.or_eq_true, Bool.and_eq_true, decide_eq_true_eq,
    beq_iff_eq] at hblank
  unfold isAlphanumeric at h
  split at h
  next hascii =>
    have hbounds := bounds_of_isAlphanum h
    omega
  next hascii =>
    obtain ⟨r, hr, hc⟩ := List.any_eq_true.mp h
    have hb : ∃ b ∈ blankRanges, b.1 ≤ c.toNat ∧ c.toNat ≤ b.2 := by
      simp only [blankRanges, List.mem_cons, List.not_mem_nil, or_false, exists_eq_or_imp,
        exists_eq_left]
      omega
    obtain ⟨b, hb, hle⟩ := hb
    have hdisjoint := List.all_eq_true.mp (List.all_eq_true.mp disjoint_blankRanges r hr) b hb
    simp only [Bool.and_eq_true, Bool.or_eq_true, decide_eq_true_eq] at hc hdisjoint
    omega

/-! ### Quotes -/

namespace Quote

variable {p : Char → Bool}

/-- Whether no character with a property is met outside of quotes. -/
def Avoids (p : Char → Bool) : Quote → List Char → Prop
  | _, [] => True
  | q, c :: cs => (q = .outside → p c = false) ∧ Avoids p (q.next c) cs

theorem avoids_append {q : Quote} {cs ds : List Char} :
    Avoids p q (cs ++ ds) ↔ Avoids p q cs ∧ Avoids p (q.after cs) ds := by
  induction cs generalizing q with
  | nil => exact ⟨fun h => ⟨trivial, h⟩, fun h => h.2⟩
  | cons c cs ih =>
    change (_ ∧ Avoids p (q.next c) (cs ++ ds)) ↔
      (_ ∧ Avoids p (q.next c) cs) ∧ Avoids p ((q.next c).after cs) ds
    rw [ih, and_assoc]

theorem Avoids.mono {p' : Char → Bool} (hp : ∀ c, p' c = true → p c = true) {q : Quote}
    {cs : List Char} (h : Avoids p q cs) : Avoids p' q cs := by
  induction cs generalizing q with
  | nil => trivial
  | cons c cs ih =>
    refine ⟨fun hq => ?_, ih h.2⟩
    by_contra hc
    have hpc := hp c (by simpa using hc)
    rw [h.1 hq] at hpc
    cases hpc

/-- A text without quotation marks stays outside, so it avoids what it does not have. -/
theorem outside_of_plain {cs : List Char} (hmark : ∀ c ∈ cs, isMark c = false)
    (hp : ∀ c ∈ cs, p c = false) : outside.after cs = outside ∧ Avoids p outside cs := by
  induction cs with
  | nil => exact ⟨rfl, trivial⟩
  | cons c cs ih =>
    rw [List.forall_mem_cons] at hmark hp
    have hnext : outside.next c = outside := by
      simp [next, hmark.1]
    obtain ⟨hafter, havoids⟩ := ih hmark.2 hp.2
    refine ⟨?_, fun _ => hp.1, ?_⟩
    · change (outside.next c).after cs = outside
      rw [hnext, hafter]
    · rw [hnext]
      exact havoids

/-- A text in double quotes is read inside of them up to its last character. -/
theorem outside_of_inQuotes (hp : p '"' = false) (cs : List Char) :
    outside.after (inQuotes cs) = outside ∧ Avoids p outside (inQuotes cs) := by
  -- From behind the first mark on, each character of the text is passed with its backslash.
  have hinside : (inside '"').after (escape cs) = inside '"' ∧
      Avoids p (inside '"') (escape cs) := by
    induction cs with
    | nil => exact ⟨rfl, trivial⟩
    | cons c cs ih =>
      rw [escape, List.flatMap_cons, after_append, avoids_append]
      have hone : (inside '"').after
            (if c == '"' || c == '\\' then ['\\', c] else [c]) = inside '"' ∧
          Avoids p (inside '"') (if c == '"' || c == '\\' then ['\\', c] else [c]) := by
        split
        next => exact ⟨rfl, nofun, nofun, trivial⟩
        next hc =>
          simp only [Bool.or_eq_true, beq_iff_eq, not_or] at hc
          refine ⟨?_, nofun, trivial⟩
          simp [after, next, hc.1, hc.2]
      rw [hone.1]
      exact ⟨ih.1, hone.2, ih.2⟩
  obtain ⟨hafter, havoids⟩ := hinside
  constructor
  · rw [inQuotes, List.cons_append]
    change (inside '"').after (_ ++ ['"']) = outside
    rw [after_append, hafter]
    rfl
  · rw [inQuotes, List.cons_append]
    refine ⟨fun _ => hp, ?_⟩
    change Avoids p (inside '"') (_ ++ ['"'])
    rw [avoids_append, hafter]
    exact ⟨havoids, nofun, trivial⟩

end Quote

theorem unquote_inQuotes (cs : List Char) : unquote (inQuotes cs) = some cs := by
  have hescaped : unescape '"' (escape cs) = some cs := by
    induction cs with
    | nil => rfl
    | cons c cs ih =>
      rw [escape] at ih
      rw [escape, List.flatMap_cons]
      split
      next => rw [List.cons_append, List.cons_append, List.nil_append, unescape, ih]; rfl
      next hc =>
        have hne : ¬c = '\\' := by
          rintro rfl
          exact hc rfl
        simp only [Bool.or_eq_true, beq_iff_eq, not_or] at hc
        rw [List.singleton_append, unescape.eq_3 _ _ _ (fun _ _ h => absurd h hne), if_neg, ih]
        · rfl
        · simp [hc.1, hc.2]
  rw [inQuotes, List.cons_append, unquote, List.getLast?_concat, List.dropLast_concat, hescaped]
  rfl

/-! ### Numerals -/

theorem isDigit_of_mem_toDigits {n : Nat} {c : Char} (hc : c ∈ Nat.toDigits 10 n) :
    c.isDigit = true := Nat.isDigit_of_mem_toDigits (by decide) (by decide) hc

theorem digits?_toDigits (n : Nat) : digits? (Nat.toDigits 10 n) = some n := by
  have hdigits : (Nat.toDigits 10 n).all Char.isDigit = true :=
    List.all_eq_true.mpr fun c hc => isDigit_of_mem_toDigits hc
  have hnonempty : (Nat.toDigits 10 n).isEmpty = false :=
    List.isEmpty_eq_false_iff.mpr Nat.toDigits_ne_nil
  rw [digits?, hdigits, hnonempty, ← Nat.ofDigitChars_eq_foldl, Nat.ofDigitChars_ten_toDigits]
  rfl

theorem exists_cons_toDigits (n : Nat) : ∃ c cs, Nat.toDigits 10 n = c :: cs ∧
    c.isDigit = true := by
  obtain ⟨c, cs, hcs⟩ := List.exists_cons_of_ne_nil (@Nat.toDigits_ne_nil n 10)
  exact ⟨c, cs, hcs, isDigit_of_mem_toDigits (hcs ▸ List.mem_cons_self)⟩

theorem unsigned?_toDigits {n : Nat} (hn : n < 0x10000000000000000) :
    unsigned? (Nat.toDigits 10 n) = some n := by
  obtain ⟨c, cs, hcs, hc⟩ := exists_cons_toDigits n
  have hplus : c ≠ '+' := by
    rintro rfl
    cases hc
  have hdigits := digits?_toDigits n
  rw [hcs] at hdigits ⊢
  unfold unsigned?
  split
  next rest heq =>
    cases heq
    exact absurd rfl hplus
  next => simp [hdigits, hn]

/-- An integer in decimal has at most a minus sign in front of its digits. -/
theorem toList_toString_int64 (n : Int64) :
    (0 ≤ n.toInt ∧ (toString n).toList = Nat.toDigits 10 n.toInt.natAbs) ∨
      (n.toInt < 0 ∧ (toString n).toList = '-' :: Nat.toDigits 10 n.toInt.natAbs) := by
  change (_ ∧ (Int.repr n.toInt).toList = _) ∨ _ ∧ (Int.repr n.toInt).toList = _
  cases n.toInt with
  | ofNat m =>
    left
    refine ⟨Int.natCast_nonneg m, ?_⟩
    rw [Int.repr, Nat.repr_eq_ofList_toDigits, String.toList_ofList]
    rfl
  | negSucc m =>
    right
    refine ⟨Int.negSucc_lt_zero m, ?_⟩
    rw [Int.repr, String.toList_append, Nat.repr_eq_ofList_toDigits]
    exact congrArg ('-' :: ·) String.toList_ofList

theorem signed?_toString (n : Int64) : signed? (toString n).toList = some n := by
  have hlower := n.le_toInt
  have hupper := n.toInt_lt
  rcases toList_toString_int64 n with ⟨hsign, htext⟩ | ⟨hsign, htext⟩
  · obtain ⟨c, cs, hcs, hc⟩ := exists_cons_toDigits n.toInt.natAbs
    have hvalue := digits?_toDigits n.toInt.natAbs
    have hpositive : signed?.positive? (c :: cs) = some n := by
      have hlt : n.toInt.natAbs < 0x8000000000000000 := by omega
      have hcast : (n.toInt.natAbs : Int) = n.toInt := Int.natAbs_of_nonneg hsign
      rw [hcs] at hvalue
      simp only [signed?.positive?, hvalue, bind, Option.bind, hlt, if_true]
      rw [← Int64.ofInt_eq_ofNat, hcast, Int64.ofInt_toInt]
    rw [htext, hcs]
    unfold signed?
    split
    next heq =>
      cases heq
      cases hc
    next heq =>
      cases heq
      cases hc
    next => exact hpositive
  · have hle : n.toInt.natAbs ≤ 0x8000000000000000 := by omega
    have hcast : -(n.toInt.natAbs : Int) = n.toInt := by omega
    rw [htext]
    simp only [signed?, digits?_toDigits, bind, Option.bind, hle, if_true]
    rw [hcast, Int64.ofInt_toInt]

end Text

namespace Literal

open Text (Quote trim)

/-- The characters that open and close where they stand outside of quotes. -/
def isBracket (c : Char) : Bool := c == '(' || c == ')' || c == '[' || c == ']'

def isDelimiter (c : Char) : Bool := c == ',' || isBracket c

/-! ### Single literals -/

/-- The characters of a literal without quotes. -/
theorem mem_written {v : Value} (hv : isWritten v = true) :
    (∃ s, written v = Text.inQuotes s) ∨
      written v ≠ [] ∧ ∀ c ∈ written v, c.isAlphanum = true ∨ c = '-' := by
  cases v with
  | int n =>
    right
    have hdigits (c : Char) (hc : c ∈ Nat.toDigits 10 n.toInt.natAbs) : c.isAlphanum = true := by
      rw [Char.isAlphanum, Text.isDigit_of_mem_toDigits hc, Bool.or_true]
    rcases Text.toList_toString_int64 n with ⟨-, htext⟩ | ⟨-, htext⟩
    · rw [written, htext]
      exact ⟨Nat.toDigits_ne_nil, fun c hc => Or.inl (hdigits c hc)⟩
    · rw [written, htext]
      refine ⟨List.cons_ne_nil _ _, fun c hc => ?_⟩
      rcases List.mem_cons.mp hc with rfl | hc
      · exact Or.inr rfl
      · exact Or.inl (hdigits c hc)
  | bool b =>
    have hall : (written (.bool b)).all Char.isAlphanum = true := by cases b <;> decide
    refine Or.inr ⟨?_, fun c hc => Or.inl (List.all_eq_true.mp hall c hc)⟩
    cases b <;> decide
  | string s => exact Or.inl ⟨s.toList, rfl⟩
  | _ => cases hv

/-- Neither the first nor the last character of a literal is blank. -/
theorem solid_written {v : Value} (hv : isWritten v = true) :
    written v ≠ [] ∧ (∀ c ∈ (written v).head?, Text.isBlank c = false) ∧
      ∀ c ∈ (written v).getLast?, Text.isBlank c = false := by
  rcases mem_written hv with ⟨s, hs⟩ | ⟨hne, hword⟩
  · rw [hs, Text.inQuotes]
    refine ⟨List.cons_ne_nil _ _, fun c hc => ?_, fun c hc => ?_⟩
    · cases hc
      decide
    · rw [List.getLast?_concat] at hc
      cases hc
      decide
  · have hsolid (c : Char) (hc : c ∈ written v) : Text.isBlank c = false := by
      rcases hword c hc with halpha | rfl
      · exact Text.isBlank_of_isAlphanumeric (Text.isAlphanumeric_of_isAlphanum halpha)
      · decide
    exact ⟨hne, fun c hc => hsolid c (List.mem_of_head? hc),
      fun c hc => hsolid c (List.mem_of_getLast? hc)⟩

theorem trim_written {v : Value} (hv : isWritten v = true) : trim (written v) = written v :=
  Text.trim_eq_self (solid_written hv).2.1 (solid_written hv).2.2

/-- Outside of quotes a literal has no delimiter, and it leaves none of its quotes open. -/
theorem outside_of_written {v : Value} (hv : isWritten v = true) :
    Quote.outside.after (written v) = .outside ∧ Quote.Avoids isDelimiter .outside (written v) := by
  rcases mem_written hv with ⟨s, hs⟩ | ⟨-, hword⟩
  · rw [hs]
    exact Quote.outside_of_inQuotes rfl s
  · apply Quote.outside_of_plain
    · intro c hc
      rcases hword c hc with halpha | rfl
      · by_contra hmark
        simp only [Quote.isMark, Bool.not_eq_false, Bool.or_eq_true, beq_iff_eq] at hmark
        rcases hmark with rfl | rfl <;> cases halpha
      · rfl
    · intro c hc
      rcases hword c hc with halpha | rfl
      · by_contra hdelimiter
        simp only [isDelimiter, isBracket, Bool.not_eq_false, Bool.or_eq_true,
          beq_iff_eq] at hdelimiter
        rcases hdelimiter with rfl | ((rfl | rfl) | rfl) | rfl <;> cases halpha
      · rfl

/-- A digit is its own lower case. -/
theorem toLower_of_isDigit {c : Char} (hc : c.isDigit = true) : c.toLower = c := by
  delta Char.isDigit at hc
  simp only [Bool.and_eq_true, decide_eq_true_eq, UInt32.le_iff_toNat_le] at hc
  have hdigit : c.val.toNat ≤ 57 := hc.2
  apply dif_neg
  rintro ⟨hupper, -⟩
  have hletter : 65 ≤ c.val.toNat := UInt32.le_iff_toNat_le.mp hupper
  omega

/-- What looks numeric and starts with a digit or a dash is neither in quotes nor a word. -/
theorem parse?_of_numeric {c : Char} {cs : List Char} (hc : c.isDigit = true ∨ c = '-')
    (htrim : trim (c :: cs) = c :: cs) (hnumeric : looksNumeric (c :: cs) = true) {n : Int64}
    (hn : Text.signed? (c :: cs) = some n) : parse? (c :: cs) = some (.int n) := by
  have hmark : Quote.isMark c = false := by
    rcases hc with hc | rfl
    · by_contra hmark
      simp only [Quote.isMark, Bool.not_eq_false, Bool.or_eq_true, beq_iff_eq] at hmark
      rcases hmark with rfl | rfl <;> cases hc
    · rfl
  have hword (w : Char) (ws : List Char) (hw : ¬(w.isDigit = true ∨ w = '-')) :
      ((c :: cs).map Char.toLower == w :: ws) = false := by
    have hlower : c.toLower = c := by
      rcases hc with hc | rfl
      · exact toLower_of_isDigit hc
      · rfl
    have hne : (c == w) = false := by
      apply beq_false_of_ne
      rintro rfl
      exact hw hc
    rw [List.map_cons, hlower, List.cons_beq_cons, hne, Bool.false_and]
  have hunquote : Text.unquote (c :: cs) = none := by
    rw [Text.unquote, hmark]
    rfl
  have htrue : equalsIgnoringCase (c :: cs) "true" = false := hword 't' _ (by decide)
  have hfalse : equalsIgnoringCase (c :: cs) "false" = false := hword 'f' _ (by decide)
  simp only [parse?, htrim, hunquote, htrue, hfalse, hnumeric, hn, if_true, Bool.false_eq_true,
    if_false]

theorem looksNumeric_toString (n : Int64) : looksNumeric (toString n).toList = true := by
  obtain ⟨c, cs, hcs, hc⟩ := Text.exists_cons_toDigits n.toInt.natAbs
  have hunsign : (Binary64.unsign (toString n).toList).2 = Nat.toDigits 10 n.toInt.natAbs := by
    rcases Text.toList_toString_int64 n with ⟨-, htext⟩ | ⟨-, htext⟩
    · rw [htext, hcs]
      unfold Binary64.unsign
      split
      next heq =>
        cases heq
        cases hc
      next heq =>
        cases heq
        cases hc
      next => rfl
    · rw [htext]
      rfl
  have hall : (Nat.toDigits 10 n.toInt.natAbs).all (fun c =>
      c.isDigit || c == '.' || c == 'e' || c == 'E' || c == '-' || c == '+') = true := by
    apply List.all_eq_true.mpr
    intro d hd
    simp [Text.isDigit_of_mem_toDigits hd]
  simp only [looksNumeric, hunsign, hall, Bool.and_true]
  rw [hcs, List.head?_cons, Option.any_some, hc, Bool.true_or]

/-- A written literal is read as its value. -/
theorem parse?_written {v : Value} (hv : isWritten v = true) : parse? (written v) = some v := by
  have htrim := trim_written hv
  cases v with
  | int n =>
    have hhead : ∃ c cs, (toString n).toList = c :: cs ∧ (c.isDigit = true ∨ c = '-') := by
      obtain ⟨c, cs, hcs, hc⟩ := Text.exists_cons_toDigits n.toInt.natAbs
      rcases Text.toList_toString_int64 n with ⟨-, htext⟩ | ⟨-, htext⟩
      · exact ⟨c, cs, htext.trans hcs, Or.inl hc⟩
      · exact ⟨'-', _, htext, Or.inr rfl⟩
    obtain ⟨c, cs, hcs, hc⟩ := hhead
    have hsigned := Text.signed?_toString n
    have hnumeric := looksNumeric_toString n
    rw [written, hcs] at htrim
    rw [hcs] at hsigned hnumeric
    rw [written, hcs]
    exact parse?_of_numeric hc htrim hnumeric hsigned
  | bool b => cases b <;> rfl
  | string s =>
    rw [written] at htrim
    simp only [parse?, written, htrim, Text.unquote_inQuotes, String.ofList_toList]
  | _ => cases hv

/-! ### Arguments -/

theorem parseArg_cons_blank {c : Char} (hc : Text.isBlank c = true) (cs : List Char) :
    parseArg (c :: cs) = parseArg cs := by
  rw [parseArg, parseArg, Text.trim_cons_blank hc]

theorem parseArg_written {v : Value} (hv : isWritten v = true) : parseArg (written v) = .ok v := by
  have hne : (written v).isEmpty = false := List.isEmpty_eq_false_iff.mpr (solid_written hv).1
  simp only [parseArg, trim_written hv, hne, parse?_written hv, Bool.false_eq_true, if_false]

theorem pieces_ne_nil (q : Quote) (cs : List Char) : pieces q cs ≠ [] := by
  cases cs with
  | nil => exact List.cons_ne_nil _ _
  | cons c cs =>
    rw [pieces]
    split
    · exact List.cons_ne_nil _ _
    · split <;> exact List.cons_ne_nil _ _

/-- A text without a comma outside of its quotes is part of one piece. -/
theorem pieces_append {q : Quote} {cs ds p : List Char} {ps : List (List Char)}
    (hcs : Quote.Avoids isDelimiter q cs) (hds : pieces (q.after cs) ds = p :: ps) :
    pieces q (cs ++ ds) = (cs ++ p) :: ps := by
  induction cs generalizing q with
  | nil => exact hds
  | cons c cs ih =>
    have hcomma : ¬(decide (q = .outside) && c == ',') = true := by
      rw [Bool.and_eq_true, decide_eq_true_eq, beq_iff_eq]
      rintro ⟨hq, rfl⟩
      cases hcs.1 hq
    rw [List.cons_append, pieces, if_neg hcomma, ih hcs.2 hds]
    rfl

/-- What comes behind a comma and a blank. -/
theorem writtenArgs_cons_cons (v w : Value) (args : List Value) :
    writtenArgs (v :: w :: args) = written v ++ ',' :: ' ' :: writtenArgs (w :: args) := by
  rw [writtenArgs, List.map_cons, List.map_cons, List.intercalate_cons_cons, List.append_assoc]
  rfl

theorem writtenArgs_singleton (v : Value) : writtenArgs [v] = written v := by
  rw [writtenArgs, List.map_cons, List.map_nil, List.intercalate_singleton]

variable {args : List Value}

/-- Written arguments leave no quotes open and have no bracket outside of them. -/
theorem outside_of_writtenArgs (hargs : ∀ v ∈ args, isWritten v = true) :
    Quote.outside.after (writtenArgs args) = .outside ∧
      Quote.Avoids isBracket .outside (writtenArgs args) := by
  have hone {v : Value} (hv : isWritten v = true) :
      Quote.Avoids isBracket .outside (written v) := by
    apply (outside_of_written hv).2.mono
    intro c hc
    rw [isDelimiter, hc, Bool.or_true]
  induction args with
  | nil => exact ⟨rfl, trivial⟩
  | cons v args ih =>
    rw [List.forall_mem_cons] at hargs
    obtain ⟨hafter, -⟩ := outside_of_written hargs.1
    cases args with
    | nil =>
      rw [writtenArgs_singleton]
      exact ⟨hafter, hone hargs.1⟩
    | cons w args =>
      obtain ⟨hrest, havoids⟩ := ih hargs.2
      rw [writtenArgs_cons_cons, Quote.after_append, Quote.avoids_append, hafter]
      exact ⟨hrest, hone hargs.1, fun _ => rfl, fun _ => rfl, havoids⟩

/-- The pieces between the commas of written arguments are their literals, up to blanks. -/
theorem forall₂_pieces_writtenArgs (hne : args ≠ []) (hargs : ∀ v ∈ args, isWritten v = true) :
    List.Forall₂ (fun p v => parseArg p = .ok v) (pieces .outside (writtenArgs args)) args := by
  induction args with
  | nil => exact absurd rfl hne
  | cons v args ih =>
    rw [List.forall_mem_cons] at hargs
    obtain ⟨hafter, havoids⟩ := outside_of_written hargs.1
    cases args with
    | nil =>
      have hpieces : pieces .outside (written v ++ []) = [written v ++ []] := by
        apply pieces_append havoids
        rw [hafter]
        rfl
      rw [List.append_nil] at hpieces
      rw [writtenArgs_singleton, hpieces]
      exact .cons (parseArg_written hargs.1) .nil
    | cons w args =>
      have hrest := ih (List.cons_ne_nil w args) hargs.2
      obtain ⟨p, ps, hps⟩ :=
        List.exists_cons_of_ne_nil (pieces_ne_nil .outside (writtenArgs (w :: args)))
      rw [hps] at hrest
      have hpieces : pieces .outside (written v ++ ',' :: ' ' :: writtenArgs (w :: args)) =
          (written v ++ []) :: (' ' :: p) :: ps := by
        apply pieces_append havoids
        rw [hafter]
        change [] :: pieces .outside (' ' :: writtenArgs (w :: args)) = _
        have hblank := @pieces_append .outside [' '] _ p ps ⟨fun _ => rfl, trivial⟩ hps
        exact congrArg ([] :: ·) hblank
      rw [List.append_nil] at hpieces
      rw [writtenArgs_cons_cons, hpieces]
      cases hrest with
      | cons hp hps =>
        refine .cons (parseArg_written hargs.1) (.cons ?_ hps)
        rw [parseArg_cons_blank (by decide)]
        exact hp

/-- Written arguments are read as their values. -/
theorem parseArgs_writtenArgs (hargs : ∀ v ∈ args, isWritten v = true) :
    parseArgs (writtenArgs args) = .ok args := by
  cases args with
  | nil => rfl
  | cons v args =>
    have hfirst : ∃ rest, writtenArgs (v :: args) = written v ++ rest := by
      cases args with
      | nil => exact ⟨[], by rw [writtenArgs_singleton, List.append_nil]⟩
      | cons w args => exact ⟨_, writtenArgs_cons_cons v w args⟩
    have hblank : (trim (writtenArgs (v :: args))).isEmpty = false := by
      obtain ⟨rest, hrest⟩ := hfirst
      obtain ⟨hne, hhead, -⟩ := solid_written (hargs v List.mem_cons_self)
      obtain ⟨c, cs, hcs⟩ := List.exists_cons_of_ne_nil hne
      rw [hcs] at hhead hrest
      rw [List.isEmpty_eq_false_iff]
      intro hnil
      have hc := Text.trim_eq_nil_iff.mp hnil c (by rw [hrest]; exact List.mem_cons_self)
      rw [hhead c rfl] at hc
      cases hc
    rw [parseArgs, hblank, if_neg Bool.false_ne_true, if_pos (outside_of_writtenArgs hargs).1]
    exact Except.mapM_eq_ok.mpr (forall₂_pieces_writtenArgs (List.cons_ne_nil v args) hargs)

end Literal

end Introspect

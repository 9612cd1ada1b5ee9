import Introspect.Proofs.Path.Literal
import Introspect.Registry
import Introspect.TypeName

/-!
Type names in source form. A text names a type exactly if it is made of the tokens of that type,
with blanks around them as one likes, and the names in it are registered and applied to as many
arguments as they have parameters. The text that a closed type is displayed as is such a text.
-/

namespace Introspect.TypeName

open Text (isBlank trimStart)

/-! ### Tokens -/

/-- Whether a text is some tokens and then a rest, with blanks before each token. -/
def Reads : (tokens : List (List Char)) → (cs rest : List Char) → Prop
  | [], cs, rest => cs = rest
  | token :: tokens, cs, rest => ∃ blanks after, (∀ c ∈ blanks, isBlank c = true) ∧
      cs = blanks ++ (token ++ after) ∧ Reads tokens after rest

/-- Whether a text is some tokens with blanks around them. -/
def Spaced (tokens : List (List Char)) (cs : List Char) : Prop :=
  ∃ rest, Reads tokens cs rest ∧ ∀ c ∈ rest, isBlank c = true

variable {tokens tokens' : List (List Char)} {cs rest rest' : List Char} {c d : Char}

theorem reads_append : Reads (tokens ++ tokens') cs rest' ↔
    ∃ rest, Reads tokens cs rest ∧ Reads tokens' rest rest' := by
  induction tokens generalizing cs with
  | nil =>
    constructor
    · exact fun h => ⟨cs, rfl, h⟩
    · rintro ⟨_, rfl, h⟩
      exact h
  | cons token tokens ih =>
    constructor
    · rintro ⟨blanks, after, hblanks, rfl, h⟩
      obtain ⟨rest, hrest, h⟩ := ih.mp h
      exact ⟨rest, ⟨blanks, after, hblanks, rfl, hrest⟩, h⟩
    · rintro ⟨rest, ⟨blanks, after, hblanks, rfl, hrest⟩, h⟩
      exact ⟨blanks, after, hblanks, rfl, ih.mpr ⟨rest, hrest, h⟩⟩

theorem reads_cons {token : List Char} : Reads (token :: tokens) cs rest' ↔
    ∃ rest, Reads [token] cs rest ∧ Reads tokens rest rest' := by
  rw [← List.singleton_append]
  exact reads_append

theorem reads_blank (hc : isBlank c = true) (hne : tokens ≠ []) (h : Reads tokens cs rest) :
    Reads tokens (c :: cs) rest := by
  obtain ⟨token, tokens, rfl⟩ := List.exists_cons_of_ne_nil hne
  obtain ⟨blanks, after, hblanks, rfl, h⟩ := h
  exact ⟨c :: blanks, after, List.forall_mem_cons.mpr ⟨hc, hblanks⟩, rfl, h⟩

theorem reads_token (token cs : List Char) : Reads [token] (token ++ cs) cs :=
  ⟨[], cs, nofun, rfl, rfl⟩

theorem length_of_reads (h : Reads tokens cs rest) :
    tokens.flatten.length + rest.length ≤ cs.length := by
  induction tokens generalizing cs with
  | nil =>
    obtain rfl : cs = rest := h
    exact (Nat.zero_add _).le
  | cons token tokens ih =>
    obtain ⟨blanks, after, -, rfl, h⟩ := h
    have hafter := ih h
    simp only [List.flatten_cons, List.length_append]
    omega

theorem trimStart_append_blanks {blanks : List Char} (h : ∀ c ∈ blanks, isBlank c = true)
    (cs : List Char) : trimStart (blanks ++ cs) = trimStart cs :=
  List.dropWhile_append_of_pos h

theorem trimStart_cons (hc : isBlank c = false) (cs : List Char) :
    trimStart (c :: cs) = c :: cs :=
  Text.trimStart_eq_self fun _ hx => (Option.some.inj hx) ▸ hc

/-- What is eaten is a token. -/
theorem eat?_eq_some (hc : isBlank c = false) : eat? c cs = some rest ↔ Reads [[c]] cs rest := by
  constructor
  · intro h
    have hsplit : cs.takeWhile isBlank ++ cs.dropWhile isBlank = cs :=
      List.takeWhile_append_dropWhile
    unfold eat? trimStart at h
    split at h
    next d rest' htrim =>
      split at h
      next hd =>
        cases h
        obtain rfl := eq_of_beq hd
        rw [htrim] at hsplit
        exact ⟨cs.takeWhile isBlank, rest, fun x hx => List.mem_takeWhile_imp hx, hsplit.symm, rfl⟩
      next => cases h
    next => cases h
  · rintro ⟨blanks, after, hblanks, rfl, rfl⟩
    rw [eat?, trimStart_append_blanks hblanks, List.singleton_append, trimStart_cons hc]
    exact if_pos BEq.rfl

theorem eat?_eq_none (hc : isBlank c = false) (hdc : d ≠ c) (h : Reads ([c] :: tokens) cs rest) :
    eat? d cs = none := by
  obtain ⟨blanks, after, hblanks, rfl, -⟩ := h
  rw [eat?, trimStart_append_blanks hblanks, List.singleton_append, trimStart_cons hc]
  exact if_neg fun hcd => hdc (eq_of_beq hcd).symm

theorem eat?_of_blank (h : ∀ c ∈ cs, isBlank c = true) : eat? d cs = none := by
  have htrim : trimStart cs = [] := List.dropWhile_eq_nil_iff.mpr h
  rw [eat?, htrim]

/-! ### The grammar -/

/-- Whether a name is one or more letters, numbers, underscores and dots. -/
structure IsName (cs : List Char) : Prop where
  nonempty : cs ≠ []
  chars : ∀ c ∈ cs, isNameChar c = true

mutual

/-- Whether tokens spell a type: a name alone, a name with as many arguments as it has parameters in
angle brackets, or one of these with brackets behind it. -/
inductive Spells (ts : TypeSystem) : (tokens : List (List Char)) → Ty → Prop
  | name {name : List Char} {d : TypeDef} (hname : IsName name)
      (hd : ts.find? (String.ofList name) = some d) : Spells ts [name] d.selfTy
  | applied {name : List Char} {d : TypeDef} {tokens : List (List Char)} {args : List Ty}
      (hname : IsName name) (hd : ts.find? (String.ofList name) = some d)
      (hargs : SpellsAll ts tokens args) (hlen : args.length = d.params.length) :
      Spells ts (name :: ['<'] :: (tokens ++ [['>']])) (.named (String.ofList name) args)
  | array {tokens : List (List Char)} {t : Ty} (ht : Spells ts tokens t) :
      Spells ts (tokens ++ [['['], [']']]) (.array t)

/-- Whether tokens spell one type or more, with commas between them. -/
inductive SpellsAll (ts : TypeSystem) : (tokens : List (List Char)) → List Ty → Prop
  | one {tokens : List (List Char)} {t : Ty} (ht : Spells ts tokens t) : SpellsAll ts tokens [t]
  | cons {tokens tokens' : List (List Char)} {t : Ty} {args : List Ty} (ht : Spells ts tokens t)
      (hargs : SpellsAll ts tokens' args) : SpellsAll ts (tokens ++ [','] :: tokens') (t :: args)

end

variable {ts : TypeSystem} {t : Ty} {args : List Ty} {text : String}

theorem Spells.tokens_ne_nil (h : Spells ts tokens t) : tokens ≠ [] := by
  cases h <;> simp

theorem SpellsAll.tokens_ne_nil (h : SpellsAll ts tokens args) : tokens ≠ [] := by
  cases h with
  | one ht => exact ht.tokens_ne_nil
  | cons => simp

theorem SpellsAll.ne_nil (h : SpellsAll ts tokens args) : args ≠ [] := by
  cases h <;> exact List.cons_ne_nil _ _

theorem isBlank_of_isNameChar (hc : isNameChar c = true) : isBlank c = false := by
  rw [isNameChar, Bool.or_eq_true, Bool.or_eq_true, beq_iff_eq, beq_iff_eq] at hc
  rcases hc with (hc | rfl) | rfl
  · exact Text.isBlank_of_isAlphanumeric hc
  · decide
  · decide

/-! ### What is read is spelled -/

/-- Brackets that are read behind a type make arrays of it. -/
theorem spells_of_parseSuffixes {fuel : Nat} {cs₀ : List Char} {u : Ty} (ht : Spells ts tokens t)
    (hreads : Reads tokens cs₀ cs) (h : parseSuffixes text fuel t cs = .ok (u, rest)) :
    ∃ tokens', Spells ts tokens' u ∧ Reads tokens' cs₀ rest := by
  induction fuel generalizing tokens t cs with
  | zero =>
    cases h
    exact ⟨tokens, ht, hreads⟩
  | succ fuel ih =>
    rw [parseSuffixes] at h
    split at h
    next =>
      cases h
      exact ⟨tokens, ht, hreads⟩
    next cs₁ hopen =>
      split at h
      next => cases h
      next cs₂ hclose =>
        have hopen := (eat?_eq_some (by decide)).mp hopen
        have hclose := (eat?_eq_some (by decide)).mp hclose
        have hbrackets : Reads [['['], [']']] cs cs₂ :=
          reads_cons.mpr ⟨cs₁, hopen, hclose⟩
        exact ih ht.array (reads_append.mpr ⟨cs, hreads, hbrackets⟩) h

theorem applied_eq_ok {d : TypeDef} {name : String} :
    applied d name args = .ok t ↔
      args = [] ∧ t = d.selfTy ∨
        args ≠ [] ∧ args.length = d.params.length ∧ t = .named name args := by
  unfold applied
  cases args with
  | nil => simp [eq_comm]
  | cons a as =>
    rw [if_neg (by simp)]
    split
    next hlen => simp [eq_of_beq hlen, eq_comm]
    next hlen => simpa using fun h => absurd (beq_iff_eq.mpr h) hlen

/-- The arguments behind a name, if an opening bracket comes next. -/
def argumentsBehind (ts : TypeSystem) (text : String) (fuel : Nat) (cs : List Char) :
    Except Error (List Ty × List Char) :=
  match eat? '<' cs with
  | some inside => parseArgs ts text fuel inside
  | none => .ok ([], cs)

/-- What can stand behind a name: the name is over, and no other name begins. -/
theorem parseType_of_name {fuel : Nat} {name after : List Char} {d : TypeDef} (hname : IsName name)
    (hreads : Reads [name] cs after) (hafter : ∀ c ∈ after.head?, isNameChar c = false)
    (hd : ts.find? (String.ofList name) = some d) :
    parseType ts text (fuel + 1) cs = (do
      let (args, rest) ← argumentsBehind ts text fuel after
      parseSuffixes text rest.length (← applied d (String.ofList name) args) rest) := by
  obtain ⟨blanks, rest, hblanks, rfl, hrest⟩ := hreads
  obtain rfl : rest = after := hrest
  have htrim : trimStart (blanks ++ (name ++ rest)) = name ++ rest := by
    rw [trimStart_append_blanks hblanks]
    apply Text.trimStart_eq_self
    rw [List.head?_append_of_ne_nil _ hname.nonempty]
    exact fun c hc => isBlank_of_isNameChar (hname.chars c (List.mem_of_head? hc))
  have hend : rest.takeWhile isNameChar = [] ∧ rest.dropWhile isNameChar = rest := by
    cases rest with
    | nil => exact ⟨rfl, rfl⟩
    | cons c rest =>
      have hc : ¬isNameChar c = true := by simp [hafter c rfl]
      exact ⟨List.takeWhile_cons_of_neg hc, List.dropWhile_cons_of_neg hc⟩
  have htake : (name ++ rest).takeWhile isNameChar = name := by
    rw [List.takeWhile_append_of_pos hname.chars, hend.1, List.append_nil]
  have hdrop : (name ++ rest).dropWhile isNameChar = rest := by
    rw [List.dropWhile_append_of_pos hname.chars, hend.2]
  rw [parseType, argumentsBehind]
  simp only [htrim, htake, hdrop, List.isEmpty_eq_false_iff.mpr hname.nonempty, hd]
  cases eat? '<' rest with
  | some inside => rfl
  | none => rfl

/-- Every type that is read begins with a registered name. -/
theorem exists_name_of_parseType {fuel : Nat}
    (h : parseType ts text (fuel + 1) cs = .ok (t, rest)) :
    ∃ name after d, IsName name ∧ Reads [name] cs after ∧
      (∀ c ∈ after.head?, isNameChar c = false) ∧ ts.find? (String.ofList name) = some d := by
  rw [parseType] at h
  dsimp only at h
  split at h
  next => cases h
  next hletters =>
    refine ⟨(trimStart cs).takeWhile isNameChar, (trimStart cs).dropWhile isNameChar, ?_⟩
    have hblanks : cs = cs.takeWhile isBlank ++ trimStart cs := List.takeWhile_append_dropWhile.symm
    have hsplit : trimStart cs = (trimStart cs).takeWhile isNameChar ++
        (trimStart cs).dropWhile isNameChar := List.takeWhile_append_dropWhile.symm
    rcases hd : ts.find? (String.ofList ((trimStart cs).takeWhile isNameChar)) with _ | d
    · rw [hd] at h
      cases h
    · refine ⟨d, ⟨by simpa using hletters, fun c hc => List.mem_takeWhile_imp hc⟩,
        ⟨cs.takeWhile isBlank, _, fun c hc => List.mem_takeWhile_imp hc, ?_, rfl⟩,
        fun c hc => ?_, rfl⟩
      · rw [← hsplit]
        exact hblanks
      · rw [Option.mem_def, ← List.find?_not_eq_head?_dropWhile] at hc
        simpa using List.find?_some hc

/-- What is read as a type is spelled by the tokens that were passed, and so for arguments. -/
theorem spells_of_parse (fuel : Nat) :
    (∀ {cs t rest}, parseType ts text fuel cs = .ok (t, rest) →
      ∃ tokens, Spells ts tokens t ∧ Reads tokens cs rest) ∧
    ∀ {cs args rest}, parseArgs ts text fuel cs = .ok (args, rest) →
      ∃ tokens, SpellsAll ts tokens args ∧ Reads (tokens ++ [['>']]) cs rest := by
  induction fuel with
  | zero => exact ⟨fun h => (nomatch h), fun h => (nomatch h)⟩
  | succ fuel ih =>
    constructor
    · intro cs t rest h
      obtain ⟨name, after, d, hname, hreads, hafter, hd⟩ := exists_name_of_parseType h
      rw [parseType_of_name hname hreads hafter hd] at h
      obtain ⟨⟨args, rest'⟩, hargs, h⟩ := Except.bind_eq_ok.mp h
      obtain ⟨head, hhead, h⟩ := Except.bind_eq_ok.mp h
      obtain ⟨tokens, hspells, hreads⟩ :
          ∃ tokens, Spells ts tokens head ∧ Reads tokens cs rest' := by
        unfold argumentsBehind at hargs
        split at hargs
        next inside hopen =>
          obtain ⟨tokens, hspells, hinside⟩ := ih.2 hargs
          have hopen := (eat?_eq_some (by decide)).mp hopen
          rcases applied_eq_ok.mp hhead with ⟨hnil, -⟩ | ⟨-, hlen, rfl⟩
          · exact absurd hnil hspells.ne_nil
          · refine ⟨_, .applied hname hd hspells hlen, ?_⟩
            exact reads_cons.mpr ⟨after, hreads, reads_cons.mpr ⟨inside, hopen, hinside⟩⟩
        next =>
          cases hargs
          rcases applied_eq_ok.mp hhead with ⟨-, rfl⟩ | ⟨hne, -⟩
          · exact ⟨_, .name hname hd, hreads⟩
          · exact absurd rfl hne
      exact spells_of_parseSuffixes hspells hreads h
    · intro cs args rest h
      obtain ⟨⟨t, after⟩, ht, h⟩ := Except.bind_eq_ok.mp h
      obtain ⟨tokens, hspells, hreads⟩ := ih.1 ht
      dsimp only at h
      split at h
      next inside hcomma =>
        have hcomma := (eat?_eq_some (by decide)).mp hcomma
        obtain ⟨⟨args, rest'⟩, hargs, h⟩ := Except.bind_eq_ok.mp h
        cases h
        obtain ⟨tokens', hspells', hinside⟩ := ih.2 hargs
        refine ⟨_, .cons hspells hspells', ?_⟩
        rw [List.append_assoc]
        exact reads_append.mpr ⟨after, hreads, reads_cons.mpr ⟨inside, hcomma, hinside⟩⟩
      next =>
        split at h
        next inside hclose =>
          cases h
          have hclose := (eat?_eq_some (by decide)).mp hclose
          exact ⟨tokens, .one hspells, reads_append.mpr ⟨after, hreads, hclose⟩⟩
        next => cases h

/-! ### What is spelled is read -/

/-- Whether a name is over where the text begins, and has no arguments. -/
structure Ends (cs : List Char) : Prop where
  head : ∀ c ∈ cs.head?, isNameChar c = false
  bare : eat? '<' cs = none

theorem isNameChar_of_isBlank (hc : isBlank c = true) : isNameChar c = false := by
  by_contra hname
  rw [Bool.not_eq_false] at hname
  rw [isBlank_of_isNameChar hname] at hc
  cases hc

theorem ends_of_blank (h : ∀ c ∈ cs, isBlank c = true) : Ends cs :=
  ⟨fun c hc => isNameChar_of_isBlank (h c (List.mem_of_head? hc)), eat?_of_blank h⟩

/-- Before a token that is no name a name is over. -/
theorem head?_of_reads (hname : isNameChar c = false) (h : Reads ([c] :: tokens) cs rest) :
    ∀ x ∈ cs.head?, isNameChar x = false := by
  obtain ⟨blanks, after, hblanks, rfl, -⟩ := h
  intro x hx
  cases blanks with
  | nil =>
    cases hx
    exact hname
  | cons b blanks =>
    have hb := hblanks b List.mem_cons_self
    cases hx
    exact isNameChar_of_isBlank hb

theorem ends_of_reads (hblank : isBlank c = false) (hname : isNameChar c = false) (hc : '<' ≠ c)
    (h : Reads ([c] :: tokens) cs rest) : Ends cs :=
  ⟨head?_of_reads hname h, eat?_eq_none hblank hc h⟩

theorem parseSuffixes_of_none (fuel : Nat) (h : eat? '[' cs = none) :
    parseSuffixes text fuel t cs = .ok (t, cs) := by
  cases fuel with
  | zero => rfl
  | succ fuel => rw [parseSuffixes, h]

mutual

/-- A type that is spelled at the front is read, up to the brackets that may follow. A list of
arguments takes fuel for itself and for each type in it, hence two units for a character. -/
theorem Spells.parseType {tokens : List (List Char)} {t : Ty} {cs rest : List Char} {fuel : Nat} :
    Spells ts tokens t → Reads tokens cs rest → Ends rest → 2 * cs.length < fuel →
    ∃ fuel', rest.length ≤ fuel' ∧
      TypeName.parseType ts text fuel cs = parseSuffixes text fuel' t rest
  | .name hname hd, hreads, hends, hfuel => by
    obtain ⟨fuel, rfl⟩ : ∃ k, fuel = k + 1 := ⟨fuel - 1, by omega⟩
    refine ⟨rest.length, le_refl _, ?_⟩
    rw [parseType_of_name hname hreads hends.head hd, argumentsBehind, hends.bare]
    rfl
  | @Spells.applied _ name _ _ args hname hd hargs hlen, hreads, hends, hfuel => by
    obtain ⟨fuel, rfl⟩ : ∃ k, fuel = k + 1 := ⟨fuel - 1, by omega⟩
    obtain ⟨after, hreads, hafter⟩ := reads_cons.mp hreads
    obtain ⟨inside, hopen, hinside⟩ := reads_cons.mp hafter
    have hlength := length_of_reads hreads
    have hlength' := length_of_reads hopen
    have hpos := List.length_pos_iff.mpr hname.nonempty
    simp only [List.flatten_cons, List.flatten_nil, List.append_nil,
      List.length_singleton] at hlength hlength'
    have hread : TypeName.parseArgs ts text fuel inside = .ok (_, rest) :=
      hargs.parseArgs hinside (by omega)
    have happlied : TypeName.applied _ (String.ofList name) args = .ok _ :=
      applied_eq_ok.mpr (Or.inr ⟨hargs.ne_nil, hlen, rfl⟩)
    refine ⟨rest.length, le_refl _, ?_⟩
    rw [parseType_of_name hname hreads (head?_of_reads (by decide) hafter) hd,
      argumentsBehind, (eat?_eq_some (by decide)).mpr hopen]
    dsimp only
    rw [hread]
    change (TypeName.applied _ _ args >>= _) = _
    rw [happlied]
    rfl
  | .array ht, hreads, hends, hfuel => by
    obtain ⟨mid, hreads, hmid⟩ := reads_append.mp hreads
    obtain ⟨fuel', hfuel', hparse⟩ := ht.parseType hreads
      (ends_of_reads (by decide) (by decide) (by decide) hmid) hfuel
    obtain ⟨inside, hopen, hclose⟩ := reads_cons.mp hmid
    -- The element type has left fuel for these brackets, as they are characters behind it.
    have hlength := length_of_reads hmid
    simp only [List.flatten_cons, List.flatten_nil, List.length_append, List.length_singleton,
      List.length_nil] at hlength
    obtain ⟨fuel', rfl⟩ : ∃ k, fuel' = k + 1 := ⟨fuel' - 1, by omega⟩
    refine ⟨fuel', by omega, ?_⟩
    rw [hparse, parseSuffixes, (eat?_eq_some (by decide)).mpr hopen]
    dsimp only
    rw [(eat?_eq_some (by decide)).mpr hclose]

/-- Types that are spelled up to a closing bracket are read as the arguments. -/
theorem SpellsAll.parseArgs {tokens : List (List Char)} {args : List Ty} {cs rest : List Char}
    {fuel : Nat} : SpellsAll ts tokens args → Reads (tokens ++ [['>']]) cs rest →
    2 * cs.length + 1 < fuel → TypeName.parseArgs ts text fuel cs = .ok (args, rest)
  | .one ht, hreads, hfuel => by
    obtain ⟨fuel, rfl⟩ : ∃ k, fuel = k + 1 := ⟨fuel - 1, by omega⟩
    obtain ⟨mid, hreads, hmid⟩ := reads_append.mp hreads
    have hshort : 2 * cs.length < fuel := by omega
    obtain ⟨fuel', -, hparse⟩ := ht.parseType hreads
      (ends_of_reads (by decide) (by decide) (by decide) hmid) hshort
    rw [parseSuffixes_of_none fuel' (eat?_eq_none (by decide) (by decide) hmid)] at hparse
    rw [TypeName.parseArgs]
    refine Except.bind_eq_ok.mpr ⟨_, hparse, ?_⟩
    dsimp only
    rw [eat?_eq_none (by decide) (by decide) hmid]
    dsimp only
    rw [(eat?_eq_some (by decide)).mpr hmid]
    rfl
  | .cons ht hargs, hreads, hfuel => by
    obtain ⟨fuel, rfl⟩ : ∃ k, fuel = k + 1 := ⟨fuel - 1, by omega⟩
    rw [List.append_assoc] at hreads
    obtain ⟨mid, hreads, hmid⟩ := reads_append.mp hreads
    have hshort : 2 * cs.length < fuel := by omega
    obtain ⟨fuel', -, hparse⟩ := ht.parseType hreads
      (ends_of_reads (by decide) (by decide) (by decide) hmid) hshort
    rw [parseSuffixes_of_none fuel' (eat?_eq_none (by decide) (by decide) hmid)] at hparse
    obtain ⟨inside, hcomma, hinside⟩ := reads_cons.mp hmid
    have hlength := length_of_reads hreads
    have hlength' := length_of_reads hcomma
    simp only [List.flatten_cons, List.flatten_nil, List.append_nil,
      List.length_singleton] at hlength hlength'
    have hread : TypeName.parseArgs ts text fuel inside = .ok (_, rest) :=
      hargs.parseArgs hinside (by omega)
    rw [TypeName.parseArgs]
    refine Except.bind_eq_ok.mpr ⟨_, hparse, ?_⟩
    dsimp only
    rw [(eat?_eq_some (by decide)).mpr hcomma]
    dsimp only
    rw [hread]
    rfl

end

theorem resolve_of_spells (hspaced : Spaced tokens text.toList) (h : Spells ts tokens t) :
    ts.resolve text = .ok t := by
  obtain ⟨rest, hreads, hblank⟩ := hspaced
  have hshort : 2 * text.toList.length < 2 * text.toList.length + 2 := by omega
  obtain ⟨fuel, -, hparse⟩ := @Spells.parseType ts text _ _ _ _ _ h hreads (ends_of_blank hblank)
    hshort
  rw [parseSuffixes_of_none fuel (eat?_of_blank hblank)] at hparse
  have htrim : trimStart rest = [] := List.dropWhile_eq_nil_iff.mpr hblank
  rw [TypeSystem.resolve]
  refine Except.bind_eq_ok.mpr ⟨_, hparse, ?_⟩
  dsimp only
  rw [htrim]
  rfl

theorem spells_of_resolve (h : ts.resolve text = .ok t) :
    ∃ tokens, Spaced tokens text.toList ∧ Spells ts tokens t := by
  obtain ⟨⟨u, rest⟩, hparse, h⟩ := Except.bind_eq_ok.mp h
  obtain ⟨tokens, hspells, hreads⟩ := (spells_of_parse _).1 hparse
  dsimp only at h
  split at h
  next htrim =>
    cases h
    exact ⟨tokens, ⟨rest, hreads, List.dropWhile_eq_nil_iff.mp htrim⟩, hspells⟩
  next => cases h

/-! ### Displayed types -/

/-- Whether a type mentions no parameter, and each name in it is registered and has as many
arguments as parameters. -/
inductive IsWritten (ts : TypeSystem) : Ty → Prop
  | named {n : String} {args : List Ty} {d : TypeDef} (hname : IsName n.toList)
      (hd : ts.find? n = some d) (hargs : ∀ a ∈ args, IsWritten ts a)
      (hlen : args.length = d.params.length) : IsWritten ts (.named n args)
  | array {t : Ty} (ht : IsWritten ts t) : IsWritten ts (.array t)

/-- The arguments are displayed with a comma and a blank between two of them. -/
theorem spellsAll_text {a : Ty} {as : List Ty}
    (h : ∀ t ∈ a :: as, ∃ tokens, Spells ts tokens t ∧
      ∀ rest, Reads tokens (t.text.toList ++ rest) rest) :
    ∃ tokens, SpellsAll ts tokens (a :: as) ∧
      ∀ rest, Reads tokens (a.text.toList ++ ((Ty.textRest as).toList ++ rest)) rest := by
  induction as generalizing a with
  | nil =>
    obtain ⟨tokens, hspells, hreads⟩ := h a List.mem_cons_self
    exact ⟨tokens, .one hspells, hreads⟩
  | cons b as ih =>
    rw [List.forall_mem_cons] at h
    obtain ⟨⟨tokens, hspells, hreads⟩, has⟩ := h
    obtain ⟨tokens', hspells', hreads'⟩ := ih has
    refine ⟨_, .cons hspells hspells', fun rest => ?_⟩
    have htext : (Ty.textRest (b :: as)).toList ++ rest =
        [','] ++ ' ' :: (b.text.toList ++ ((Ty.textRest as).toList ++ rest)) := by
      simp [Ty.textRest]
    rw [htext]
    exact reads_append.mpr ⟨_, hreads _, reads_cons.mpr
      ⟨_, reads_token _ _, reads_blank (by decide) hspells'.tokens_ne_nil (hreads' rest)⟩⟩

theorem spells_text (hnames : ∀ n d, ts.find? n = some d → d.name = n) (h : IsWritten ts t) :
    ∃ tokens, Spells ts tokens t ∧ ∀ rest, Reads tokens (t.text.toList ++ rest) rest := by
  induction h with
  | @named n args d hname hd _ hlen ih =>
    have hfound : ts.find? (String.ofList n.toList) = some d := by rwa [String.ofList_toList]
    cases args with
    | nil =>
      have hself : d.selfTy = .named n [] := by
        have hnone : d.params = [] := List.length_eq_zero_iff.mp hlen.symm
        rw [TypeDef.selfTy, hnone, hnames n d hd]
        rfl
      rw [← hself]
      refine ⟨_, .name hname hfound, fun rest => ?_⟩
      rw [hself]
      exact reads_token _ _
    | cons a as =>
      obtain ⟨tokens, hspells, hreads⟩ := spellsAll_text ih
      have happlied := Spells.applied hname hfound hspells hlen
      rw [String.ofList_toList] at happlied
      refine ⟨_, happlied, fun rest => ?_⟩
      have htext : (Ty.named n (a :: as)).text.toList ++ rest = n.toList ++ (['<'] ++
          (a.text.toList ++ ((Ty.textRest as).toList ++ (['>'] ++ rest)))) := by
        simp [Ty.text]
      rw [htext]
      exact reads_cons.mpr ⟨_, reads_token _ _, reads_cons.mpr ⟨_, reads_token _ _,
        reads_append.mpr ⟨_, hreads _, reads_token _ _⟩⟩⟩
  | array _ ih =>
    obtain ⟨tokens, hspells, hreads⟩ := ih
    refine ⟨_, hspells.array, fun rest => ?_⟩
    rw [Ty.text, String.toList_append, List.append_assoc]
    exact reads_append.mpr ⟨_, hreads _,
      reads_cons.mpr ⟨_, reads_token _ _, reads_token _ _⟩⟩

/-- In every registry a text names a type exactly if it is made of tokens that spell that type, with
blanks around them as one likes, and the text of every closed type names that type. -/
theorem resolve_eq_ok_iff_spells (r : Registry) (limit : Nat) :
    (∀ text t, (r.types limit).resolve text = .ok t ↔
      ∃ tokens, Spaced tokens text.toList ∧ Spells (r.types limit) tokens t) ∧
    ∀ t, IsWritten (r.types limit) t → (r.types limit).resolve t.text = .ok t := by
  refine ⟨fun text t => ⟨spells_of_resolve, ?_⟩, fun t ht => ?_⟩
  · rintro ⟨tokens, hspaced, hspells⟩
    exact resolve_of_spells hspaced hspells
  · have hnames : ∀ n d, (r.types limit).find? n = some d → d.name = n := by
      intro n d hd
      have hname := List.find?_some hd
      exact eq_of_beq hname
    obtain ⟨tokens, hspells, hreads⟩ := spells_text hnames ht
    have hread := hreads []
    rw [List.append_nil] at hread
    exact resolve_of_spells ⟨[], hread, nofun⟩ hspells

/-- Blanks around the tokens of a type that is displayed without them. -/
theorem resolve_eq_ok_iff_spells_lists :
    IsWritten (Registry.builtin.types 16) (.array (.list .int)) ∧
    (Ty.array (.list .int)).text = "List<int>[]" ∧
    (Registry.builtin.types 16).resolve (Ty.array (.list .int)).text =
      .ok (.array (.list .int)) ∧
    (Registry.builtin.types 16).resolve " List <int> [\t]" = .ok (.array (.list .int)) := by
  have hint : IsName "int".toList := ⟨by decide, List.all_eq_true.mp (by decide)⟩
  have hlist : IsName "List".toList := ⟨by decide, List.all_eq_true.mp (by decide)⟩
  have hints : IsWritten (Registry.builtin.types 16) .int :=
    @IsWritten.named _ _ _ (TypeDef.new "int" .structType) hint rfl nofun rfl
  have hlists : IsWritten (Registry.builtin.types 16) (.list .int) :=
    @IsWritten.named _ _ _ Builtin.list hlist rfl
      (fun a ha => List.mem_singleton.mp ha ▸ hints) rfl
  obtain ⟨hspells, hwritten⟩ := resolve_eq_ok_iff_spells Registry.builtin 16
  refine ⟨hlists.array, rfl, hwritten _ hlists.array, (hspells " List <int> [\t]" _).mpr ?_⟩
  have hitem : Spells (Registry.builtin.types 16) ["int".toList] .int :=
    @Spells.name _ _ (TypeDef.new "int" .structType) hint (by rw [String.ofList_toList]; rfl)
  have hspelled : Spells (Registry.builtin.types 16) ["List".toList, ['<'], "int".toList, ['>']]
      (.list .int) := by
    have happlied := @Spells.applied _ _ Builtin.list _ _ hlist
      (by rw [String.ofList_toList]; rfl) (.one hitem) rfl
    rwa [String.ofList_toList] at happlied
  have hspace : ∀ c ∈ [' '], isBlank c = true := List.forall_mem_singleton.mpr (by decide)
  have htab : ∀ c ∈ ['\t'], isBlank c = true := List.forall_mem_singleton.mpr (by decide)
  refine ⟨_, ⟨[], ?_, nofun⟩, hspelled.array⟩
  exact ⟨[' '], " <int> [\t]".toList, hspace, rfl, [' '], "int> [\t]".toList, hspace, rfl,
    [], "> [\t]".toList, nofun, rfl, [], " [\t]".toList, nofun, rfl,
    [' '], "\t]".toList, hspace, rfl, ['\t'], [], htab, rfl, rfl⟩

end Introspect.TypeName

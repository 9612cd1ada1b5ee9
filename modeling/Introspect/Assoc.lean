/-!
Association lists. A key is found by equality alone, and a key that is stored keeps its first
spelling when its value changes. The main statements say what is found after each operation.
-/

namespace Introspect.Assoc

variable {κ α : Type} [BEq κ]

def find? (k : κ) : List (κ × α) → Option α
  | [] => none
  | (k', a) :: rest => if k' == k then some a else find? k rest

def erase (k : κ) (entries : List (κ × α)) : List (κ × α) :=
  entries.filter fun e => !(e.1 == k)

/-- Replaces the value of an equal key, or enters the key at the end. -/
def set (k : κ) (a : α) : List (κ × α) → List (κ × α)
  | [] => [(k, a)]
  | (k', a') :: rest => if k' == k then (k', a) :: rest else (k', a') :: set k a rest

/-- Replaces the value of an equal key, or enters the key in its place in the ascending order. -/
def put [Ord κ] (k : κ) (a : α) : List (κ × α) → List (κ × α)
  | [] => [(k, a)]
  | (k', a') :: rest =>
    if k' == k then (k', a) :: rest
    else if compare k k' == .lt then (k, a) :: (k', a') :: rest
    else (k', a') :: put k a rest

def ofList [Ord κ] (entries : List (κ × α)) : List (κ × α) :=
  entries.foldl (fun acc e => put e.1 e.2 acc) []

/-! ### Look-up -/

section

variable [EquivBEq κ]

theorem find?_congr {k k' : κ} (h : k == k') (entries : List (κ × α)) :
    find? k entries = find? k' entries := by
  induction entries with
  | nil => rfl
  | cons e rest ih => simp only [find?, ih, BEq.congr_right h]

theorem find?_set (k k' : κ) (a : α) (entries : List (κ × α)) :
    find? k' (set k a entries) = if k == k' then some a else find? k' entries := by
  induction entries with
  | nil => rfl
  | cons e rest ih =>
    obtain ⟨k₀, a₀⟩ := e
    by_cases h : k₀ == k
    · have hk : (k₀ == k') = (k == k') := BEq.congr_left h
      by_cases hk' : k == k' <;> simp [set, find?, h, hk, hk']
    · have hne : k == k' → (k₀ == k') = false := fun hk => by
        rw [← BEq.congr_right hk]
        simpa using h
      by_cases hk' : k == k'
      · simp [set, find?, h, hk', ih, hne hk']
      · simp [set, find?, h, hk', ih]

theorem find?_put [Ord κ] (k k' : κ) (a : α) (entries : List (κ × α)) :
    find? k' (put k a entries) = if k == k' then some a else find? k' entries := by
  induction entries with
  | nil => rfl
  | cons e rest ih =>
    obtain ⟨k₀, a₀⟩ := e
    by_cases h : k₀ == k
    · have hk : (k₀ == k') = (k == k') := BEq.congr_left h
      by_cases hk' : k == k' <;> simp [put, find?, h, hk, hk']
    · by_cases hlt : compare k k₀ == .lt
      · by_cases hk' : k == k' <;> simp [put, find?, h, hlt, hk']
      · have hne : k == k' → (k₀ == k') = false := fun hk => by
          rw [← BEq.congr_right hk]
          simpa using h
        by_cases hk' : k == k'
        · simp [put, find?, h, hlt, hk', ih, hne hk']
        · simp [put, find?, h, hlt, hk', ih]

theorem find?_erase (k k' : κ) (entries : List (κ × α)) :
    find? k' (erase k entries) = if k == k' then none else find? k' entries := by
  induction entries with
  | nil => simp [erase, find?]
  | cons e rest ih =>
    obtain ⟨k₀, a₀⟩ := e
    simp only [erase] at ih
    by_cases h : k₀ == k
    · have hk : (k₀ == k') = (k == k') := BEq.congr_left h
      by_cases hk' : k == k' <;> simp [erase, find?, h, hk, hk', ih]
    · have hne : k == k' → (k₀ == k') = false := fun hk => by
        rw [← BEq.congr_right hk]
        simpa using h
      by_cases hk' : k == k'
      · simp [erase, find?, h, hk', ih, hne hk']
      · simp [erase, find?, h, hk', ih]

end

/-! ### What all entries have -/

theorem exists_mem_of_find? {k : κ} {a : α} {entries : List (κ × α)}
    (h : find? k entries = some a) : ∃ e ∈ entries, e.2 = a := by
  induction entries with
  | nil => cases h
  | cons e rest ih =>
    simp only [find?] at h
    split at h
    · cases h
      exact ⟨e, List.mem_cons_self, rfl⟩
    · obtain ⟨e', he', ha⟩ := ih h
      exact ⟨e', List.mem_cons_of_mem _ he', ha⟩

theorem forall_mem_set {p : α → Prop} {k : κ} {a : α} {entries : List (κ × α)}
    (h : ∀ e ∈ entries, p e.2) (ha : p a) : ∀ e ∈ set k a entries, p e.2 := by
  induction entries with
  | nil => simpa [set] using ha
  | cons e rest ih =>
    rw [List.forall_mem_cons] at h
    simp only [set]
    split
    · exact List.forall_mem_cons.mpr ⟨ha, h.2⟩
    · exact List.forall_mem_cons.mpr ⟨h.1, ih h.2⟩

theorem forall_mem_put [Ord κ] {p : α → Prop} {k : κ} {a : α} {entries : List (κ × α)}
    (h : ∀ e ∈ entries, p e.2) (ha : p a) : ∀ e ∈ put k a entries, p e.2 := by
  induction entries with
  | nil => simpa [put] using ha
  | cons e rest ih =>
    rw [List.forall_mem_cons] at h
    simp only [put]
    split
    · exact List.forall_mem_cons.mpr ⟨ha, h.2⟩
    · split
      · exact List.forall_mem_cons.mpr ⟨ha, List.forall_mem_cons.mpr h⟩
      · exact List.forall_mem_cons.mpr ⟨h.1, ih h.2⟩

end Introspect.Assoc

import Introspect.Generic.OpenType

/-!
Dependencies between the parameters of a definition. A graph that is built has the edges that were
added between two different nodes of it, so that of a definition has exactly those from a parameter
to the others that its constraints mention.
-/

namespace Introspect

namespace Parameter

theorem length_all (d : TypeDef) : (all d).length = d.params.length := by
  simp only [all, List.length_map, List.length_zipIdx]

theorem getElem?_all (d : TypeDef) (i : Nat) :
    (all d)[i]? = d.params[i]?.map fun declared => ofDeclared d declared i := by
  simp only [all, List.getElem?_map, List.getElem?_zipIdx, Option.map_map, Nat.zero_add]
  rfl

theorem ofDeclared_position (d : TypeDef) (declared : GenericParam) (i : Nat) :
    (ofDeclared d declared i).position = i := rfl

theorem mem_all {d : TypeDef} {p : Parameter} :
    p ∈ all d ↔ ∃ i declared, d.params[i]? = some declared ∧ p = ofDeclared d declared i := by
  rw [List.mem_iff_getElem?]
  simp only [getElem?_all, Option.map_eq_some_iff]
  constructor
  · rintro ⟨i, declared, hi, rfl⟩
    exact ⟨i, declared, hi, rfl⟩
  · rintro ⟨i, declared, hi, rfl⟩
    exact ⟨i, declared, hi, rfl⟩

end Parameter

/-- Whether the constraints of one parameter mention another one. -/
def TypeDef.DependsOn (d : TypeDef) (i j : Nat) : Prop :=
  i ≠ j ∧ j < d.params.length ∧
    ∃ declared, d.params[i]? = some declared ∧
      ∃ k ∈ declared.constraints, k.mentions (d.param j) = true

namespace TypeDef.DependsOn

variable {d : TypeDef} {i j : Nat}

theorem lt_left (h : d.DependsOn i j) : i < d.params.length := by
  obtain ⟨-, -, declared, hi, -⟩ := h
  exact (List.getElem?_eq_some_iff.mp hi).1

theorem iff_mentionedBy :
    d.DependsOn i j ↔ i ≠ j ∧ j < d.params.length ∧
      Parameter.mentionedBy d (d.param j) i = true := by
  have hmention : Parameter.mentionedBy d (d.param j) i = true ↔
      ∃ declared, d.params[i]? = some declared ∧
        ∃ k ∈ declared.constraints, k.mentions (d.param j) = true := by
    cases hi : d.params[i]? with
    | none => simp [Parameter.mentionedBy, hi]
    | some declared => simp [Parameter.mentionedBy, hi]
  rw [hmention]
  rfl

theorem iff_mem_dependsOn {declared : GenericParam} :
    d.DependsOn i j ↔ j ∈ (Parameter.ofDeclared d declared i).dependsOn := by
  rw [iff_mentionedBy]
  simp only [Parameter.ofDeclared, List.mem_filter, List.mem_range, bne_iff_ne, and_assoc]
  exact ⟨fun ⟨hne, hj, hm⟩ => ⟨hj, hne.symm, hm⟩, fun ⟨hj, hne, hm⟩ => ⟨hne.symm, hj, hm⟩⟩

end TypeDef.DependsOn

namespace DependencyGraph

def Edge (g : DependencyGraph) (a b : Nat) : Prop := b ∈ g.neighbors a

theorem size_new (nodes : Nat) : (new nodes).size = nodes := List.length_replicate

theorem not_edge_new (nodes a b : Nat) : ¬(new nodes).Edge a b := by
  unfold Edge neighbors new
  intro h
  rw [List.getElem?_replicate] at h
  split at h <;> cases h

/-- After a row of additions there are the edges from before with the new ones that stay inside the
graph and lead to another node. -/
theorem edge_foldl_addEdge (es : List (Nat × Nat)) (g : DependencyGraph) (a b : Nat) :
    (es.foldl (fun g e => g.addEdge e.1 e.2) g).Edge a b ↔
      g.Edge a b ∨ ((a, b) ∈ es ∧ a ≠ b ∧ a < g.size ∧ b < g.size) := by
  induction es generalizing g with
  | nil => simp
  | cons e es ih =>
    obtain ⟨source, target⟩ := e
    rw [List.foldl_cons, ih, Edge, mem_neighbors_addEdge, size_addEdge, List.mem_cons,
      Prod.mk.injEq]
    have hadd : g.canAdd source target = true ↔
        source ≠ target ∧ target < g.size ∧ source < g.size ∧ ¬g.Edge source target := by
      simp [canAdd, Edge, and_assoc]
    rw [hadd]
    constructor
    · rintro ((h | ⟨⟨hne, ht, hs, -⟩, rfl, rfl⟩) | ⟨hmem, h⟩)
      · exact Or.inl h
      · exact Or.inr ⟨Or.inl ⟨rfl, rfl⟩, hne, hs, ht⟩
      · exact Or.inr ⟨Or.inr hmem, h⟩
    · rintro (h | ⟨⟨rfl, rfl⟩ | hmem, hne, ha, hb⟩)
      · exact Or.inl (Or.inl h)
      · by_cases hedge : g.Edge a b
        · exact Or.inl (Or.inl hedge)
        · exact Or.inl (Or.inr ⟨⟨hne, hb, ha, hedge⟩, rfl, rfl⟩)
      · exact Or.inr ⟨hmem, hne, ha, hb⟩

/-- The graph that a row of additions makes of the one without edges. -/
def ofEdges (nodes : Nat) (es : List (Nat × Nat)) : DependencyGraph :=
  es.foldl (fun g e => g.addEdge e.1 e.2) (new nodes)

theorem edge_ofEdges {nodes a b : Nat} {es : List (Nat × Nat)} :
    (ofEdges nodes es).Edge a b ↔ (a, b) ∈ es ∧ a ≠ b ∧ a < nodes ∧ b < nodes := by
  rw [ofEdges, edge_foldl_addEdge, size_new]
  exact or_iff_right (not_edge_new nodes a b)

theorem size_ofEdges (nodes : Nat) (es : List (Nat × Nat)) : (ofEdges nodes es).size = nodes := by
  have hfold (g : DependencyGraph) : (es.foldl (fun g e => g.addEdge e.1 e.2) g).size = g.size := by
    induction es generalizing g with
    | nil => rfl
    | cons e es ih => rw [List.foldl_cons, ih, size_addEdge]
  exact (hfold (new nodes)).trans (size_new nodes)

theorem dependencies_eq_ofEdges (d : TypeDef) :
    OpenType.dependencies d = ofEdges d.params.length
      ((Parameter.all d).flatMap fun p => p.dependsOn.map fun target => (p.position, target)) := by
  simp only [OpenType.dependencies, ofEdges, List.foldl_flatMap, List.foldl_map]

/-- The graph of a definition has its dependencies for edges. -/
theorem edge_dependencies (d : TypeDef) (i j : Nat) :
    (OpenType.dependencies d).Edge i j ↔ d.DependsOn i j := by
  rw [dependencies_eq_ofEdges, edge_ofEdges]
  constructor
  · rintro ⟨hmem, -, -, -⟩
    obtain ⟨p, hp, hij⟩ := List.mem_flatMap.mp hmem
    obtain ⟨target, htarget, he⟩ := List.mem_map.mp hij
    cases he
    obtain ⟨k, declared, -, rfl⟩ := Parameter.mem_all.mp hp
    exact TypeDef.DependsOn.iff_mem_dependsOn.mpr htarget
  · intro h
    obtain ⟨hne, hj, declared, hi, -⟩ := id h
    refine ⟨List.mem_flatMap.mpr ⟨Parameter.ofDeclared d declared i, ?_, ?_⟩, hne, h.lt_left, hj⟩
    · exact Parameter.mem_all.mpr ⟨i, declared, hi, rfl⟩
    · exact List.mem_map.mpr ⟨j, TypeDef.DependsOn.iff_mem_dependsOn.mp h, rfl⟩

end DependencyGraph

end Introspect

import Introspect.Proofs.Generic.Dependency
import Introspect.Registry
import Mathlib.Data.List.Chain
import Mathlib.Data.List.Nodup
import Mathlib.Logic.Relation

/-!
The search for a cycle among the dependencies. A finished run of it is a derivation, which puts no
bound on the depth, and every graph has one: a path never takes up a node twice. What a run leaves
behind leads to no cycle, and where a run fails it has found one, so the search decides whether there
is a cycle.
-/

namespace Introspect

/-- A way of two or more steps that ends where it starts and comes through no other place twice. -/
structure IsCycle (r : Nat → Nat → Prop) (cycle : List Nat) : Prop where
  length : 3 ≤ cycle.length
  closed : cycle.head? = cycle.getLast?
  distinct : cycle.dropLast.Nodup
  steps : cycle.IsChain r

theorem IsCycle.exists_transGen {r : Nat → Nat → Prop} {cycle : List Nat} (h : IsCycle r cycle) :
    ∃ x, Relation.TransGen r x x := by
  match cycle, h with
  | [], h | [_], h => exact absurd h.length (by simp)
  | x :: y :: rest, h =>
    obtain ⟨hxy, hrest⟩ := List.isChain_cons_cons.mp h.steps
    have hclosed := h.closed
    rw [List.head?_cons, List.getLast?_cons_cons,
      List.getLast?_eq_some_getLast (List.cons_ne_nil y rest), Option.some.injEq] at hclosed
    have hback := List.relationReflTransGen_of_exists_isChain_cons rest hrest hclosed.symm
    exact ⟨x, Relation.TransGen.head' hxy hback⟩

theorem not_transGen_of_acc {r : Nat → Nat → Prop} {x : Nat} (h : Acc (Function.swap r) x) :
    ¬Relation.TransGen r x x := by
  have hacc := h.transGen
  clear h
  induction hacc with
  | intro x _ ih =>
    intro hx
    exact ih x (Relation.transGen_swap.mpr hx) hx

namespace DependencyGraph

variable {g : DependencyGraph}

/-! ### Graphs that are built -/

/-- Edges lead from one node of the graph to another one. -/
structure WellFormed (g : DependencyGraph) : Prop where
  irrefl : ∀ a, ¬g.Edge a a
  lt_size : ∀ a b, g.Edge a b → a < g.size ∧ b < g.size

theorem wellFormed_ofEdges (nodes : Nat) (es : List (Nat × Nat)) :
    (ofEdges nodes es).WellFormed := by
  constructor
  · intro a h
    exact (edge_ofEdges.mp h).2.1 rfl
  · intro a b h
    rw [size_ofEdges]
    exact (edge_ofEdges.mp h).2.2

/-! ### Runs of the search -/

/-- The runs that pass the nodes of `todo`, `path` being the way to them and `done` what is left
behind. -/
inductive Scans (g : DependencyGraph) :
    (path done todo : List Nat) → Except (List Nat) (List Nat) → Prop
  | finish {path done} : Scans g path done [] (.ok done)
  | back {path done next todo} (hback : next ∈ path) :
      Scans g path done (next :: todo) (.error (path.dropWhile (· != next) ++ [next]))
  | skip {path done next todo r} (hnext : next ∉ path) (hdone : next ∈ done)
      (hrest : Scans g path done todo r) : Scans g path done (next :: todo) r
  | fail {path done next todo cycle} (hnext : next ∉ path) (hnew : next ∉ done)
      (hbelow : Scans g (path ++ [next]) done (g.neighbors next) (.error cycle)) :
      Scans g path done (next :: todo) (.error cycle)
  | descend {path done next todo done' r} (hnext : next ∉ path) (hnew : next ∉ done)
      (hbelow : Scans g (path ++ [next]) done (g.neighbors next) (.ok done'))
      (hrest : Scans g path (done' ++ [next]) todo r) : Scans g path done (next :: todo) r

/-- Whether a run over all nodes ends with the answer. -/
def Answers (g : DependencyGraph) : Option (List Nat) → Prop
  | none => ∃ done, g.Scans [] [] (List.range g.size) (.ok done)
  | some cycle => g.Scans [] [] (List.range g.size) (.error cycle)

/-- The search at one node. -/
def look (g : DependencyGraph) (fuel : Nat) (path done : List Nat) (next : Nat) :
    Except (List Nat) (List Nat) :=
  if path.contains next then .error (path.dropWhile (· != next) ++ [next])
  else if done.contains next then .ok done
  else g.visit fuel path done next

theorem visit_succ (g : DependencyGraph) (fuel : Nat) (path done : List Nat) (node : Nat) :
    g.visit (fuel + 1) path done node =
      ((g.neighbors node).foldlM (g.look fuel (path ++ [node])) done).map (· ++ [node]) := rfl

theorem findCycle?_eq (g : DependencyGraph) :
    g.findCycle? = match (List.range g.size).foldlM (g.look g.size []) [] with
      | .ok _ => none
      | .error cycle => some cycle := rfl

/-- One node after the other is looked at, with a run below each that is new. -/
theorem scans_of_visit {fuel : Nat} {path todo : List Nat}
    (hvisit : ∀ done, ∀ next ∈ todo, next ∉ path →
      ∃ r, g.Scans (path ++ [next]) done (g.neighbors next) r ∧
        g.visit fuel path done next = r.map (· ++ [next])) (done : List Nat) :
    g.Scans path done todo (todo.foldlM (g.look fuel path) done) := by
  induction todo generalizing done with
  | nil => exact .finish
  | cons next todo ih =>
    have hrest := ih fun done a ha => hvisit done a (List.mem_cons_of_mem next ha)
    rw [List.foldlM_cons, look]
    split
    next hback => exact .back (List.contains_iff_mem.mp hback)
    next hnext =>
      rw [List.contains_iff_mem] at hnext
      split
      next hdone => exact .skip hnext (List.contains_iff_mem.mp hdone) (hrest done)
      next hnew =>
        rw [List.contains_iff_mem] at hnew
        obtain ⟨r, hbelow, hr⟩ := hvisit done next List.mem_cons_self hnext
        rw [hr]
        cases r with
        | error cycle => exact .fail hnext hnew hbelow
        | ok done' => exact .descend hnext hnew hbelow (hrest (done' ++ [next]))

/-- Nodes that differ are not more than there are. -/
theorem length_le_size {nodes : List Nat} {size : Nat} (hnodup : nodes.Nodup)
    (hlt : ∀ a ∈ nodes, a < size) : nodes.length ≤ size := by
  have hsub : nodes ⊆ List.range size := fun a ha => List.mem_range.mpr (hlt a ha)
  have hlength := hnodup.length_le_of_subset hsub
  rwa [List.length_range] at hlength

theorem nodup_concat {path : List Nat} {next : Nat} (hpath : path.Nodup) (hnext : next ∉ path) :
    (path ++ [next]).Nodup :=
  List.nodup_append.mpr ⟨hpath, List.nodup_singleton next, by
    rintro a ha b hb rfl
    exact hnext (List.mem_singleton.mp hb ▸ ha)⟩

/-- With fuel for all nodes that are not on the path the search comes to an end by itself. -/
theorem scans_foldlM (hg : g.WellFormed) {fuel : Nat} {path todo : List Nat}
    (hnodup : path.Nodup) (hpath : ∀ a ∈ path, a < g.size) (htodo : ∀ a ∈ todo, a < g.size)
    (hfuel : g.size ≤ fuel + path.length) (done : List Nat) :
    g.Scans path done todo (todo.foldlM (g.look fuel path) done) := by
  induction fuel generalizing path todo done with
  | zero =>
    -- The path has all nodes already, so none of the nodes to pass is new.
    refine scans_of_visit (fun done next hmem hnext => ?_) done
    have hlt : ∀ a ∈ path ++ [next], a < g.size :=
      List.forall_mem_append.mpr ⟨hpath, List.forall_mem_singleton.mpr (htodo next hmem)⟩
    have hlength := length_le_size (nodup_concat hnodup hnext) hlt
    rw [List.length_append, List.length_singleton] at hlength
    omega
  | succ fuel ih =>
    refine scans_of_visit (fun done next hmem hnext => ⟨_, ?_, visit_succ g fuel path done next⟩) done
    have hlt : ∀ a ∈ path ++ [next], a < g.size :=
      List.forall_mem_append.mpr ⟨hpath, List.forall_mem_singleton.mpr (htodo next hmem)⟩
    refine ih (nodup_concat hnodup hnext) hlt (fun a ha => (hg.lt_size next a ha).2) ?_ done
    rw [List.length_append, List.length_singleton]
    omega

/-- The search answers as a run without a bound does. -/
theorem answers_findCycle? (hg : g.WellFormed) : g.Answers g.findCycle? := by
  have hrun : g.Scans [] [] (List.range g.size)
      ((List.range g.size).foldlM (g.look g.size []) []) :=
    scans_foldlM hg List.nodup_nil nofun (fun a => List.mem_range.mp) (Nat.le_refl g.size) []
  rw [findCycle?_eq]
  cases hr : (List.range g.size).foldlM (g.look g.size []) [] with
  | ok done =>
    rw [hr] at hrun
    exact ⟨done, hrun⟩
  | error cycle =>
    rw [hr] at hrun
    exact hrun

/-! ### What is left behind -/

/-- A run that comes to its end leaves behind all that it passed. -/
theorem Scans.subset {path done todo : List Nat} {r : Except (List Nat) (List Nat)}
    (h : g.Scans path done todo r) {done' : List Nat} (hr : r = .ok done') :
    done ⊆ done' ∧ todo ⊆ done' := by
  induction h generalizing done' with
  | finish =>
    cases hr
    exact ⟨fun _ ha => ha, nofun⟩
  | back => cases hr
  | fail => cases hr
  | skip _ hdone _ ih =>
    obtain ⟨hkept, hrest⟩ := ih hr
    exact ⟨hkept, List.cons_subset.mpr ⟨hkept hdone, hrest⟩⟩
  | descend _ _ _ _ ihbelow ih =>
    obtain ⟨hkept, hrest⟩ := ih hr
    obtain ⟨hbelow, -⟩ := ihbelow rfl
    rw [List.append_subset] at hkept
    exact ⟨List.Subset.trans hbelow hkept.1,
      List.cons_subset.mpr ⟨hkept.2 (List.mem_singleton_self _), hrest⟩⟩

/-- No way without an end starts from what is left behind: a node joins it after all of its
neighbors. -/
theorem Scans.acc {path done todo : List Nat} {r : Except (List Nat) (List Nat)}
    (h : g.Scans path done todo r) (hdone : ∀ a ∈ done, Acc (Function.swap g.Edge) a)
    {done' : List Nat} (hr : r = .ok done') : ∀ a ∈ done', Acc (Function.swap g.Edge) a := by
  induction h generalizing done' with
  | finish =>
    cases hr
    exact hdone
  | back => cases hr
  | fail => cases hr
  | skip _ _ _ ih => exact ih hdone hr
  | descend _ _ hbelow _ ihbelow ih =>
    have hacc := ihbelow hdone rfl
    have hnext := Acc.intro _ fun b hb => hacc b ((hbelow.subset rfl).2 hb)
    exact ih (List.forall_mem_append.mpr ⟨hacc, List.forall_mem_singleton.mpr hnext⟩) hr

/-! ### What is found -/

/-- An edge from the end of a path back into it closes a cycle. -/
theorem isCycle_of_back (hg : g.WellFormed) {path : List Nat} {next : Nat}
    (hnodup : path.Nodup) (hchain : path.IsChain g.Edge) (hback : next ∈ path)
    (hedge : ∀ node ∈ path.getLast?, g.Edge node next) :
    IsCycle g.Edge (path.dropWhile (· != next) ++ [next]) := by
  obtain ⟨front, rest, rfl⟩ := List.append_of_mem hback
  have hfront : ∀ a ∈ front, (a != next) = true := fun a ha =>
    bne_iff_ne.mpr ((List.nodup_append.mp hnodup).2.2 a ha next List.mem_cons_self)
  have hdrop : (front ++ next :: rest).dropWhile (· != next) = next :: rest := by
    rw [List.dropWhile_append_of_pos hfront]
    simp
  rw [List.getLast?_append_of_ne_nil front (List.cons_ne_nil next rest)] at hedge
  rw [hdrop]
  constructor
  · -- The way is longer than one step, as no edge leads from a node to itself.
    cases rest with
    | nil => exact absurd (hedge next rfl) (hg.irrefl next)
    | cons a rest => simp
  · rw [List.getLast?_concat, List.cons_append, List.head?_cons]
  · rw [List.dropLast_concat]
    exact hnodup.of_append_right
  · rw [List.isChain_append]
    refine ⟨hchain.right_of_append, List.isChain_singleton next, fun node hnode b hb => ?_⟩
    cases hb
    exact hedge node hnode

/-- A run that fails has found a cycle, if its path follows edges up to the nodes it passes. -/
theorem Scans.isCycle (hg : g.WellFormed) {path done todo : List Nat}
    {r : Except (List Nat) (List Nat)} (h : g.Scans path done todo r) (hnodup : path.Nodup)
    (hchain : path.IsChain g.Edge) (htodo : ∀ node ∈ path.getLast?, ∀ a ∈ todo, g.Edge node a)
    {cycle : List Nat} (hr : r = .error cycle) : IsCycle g.Edge cycle := by
  induction h with
  | finish => cases hr
  | back hback =>
    cases hr
    exact isCycle_of_back hg hnodup hchain hback fun node hnode =>
      htodo node hnode _ List.mem_cons_self
  | skip _ _ _ ih =>
    exact ih hnodup hchain (fun node hnode a ha => htodo node hnode a (List.mem_cons_of_mem _ ha)) hr
  | fail hnext _ _ ih =>
    refine ih (nodup_concat hnodup hnext) ?_ ?_ hr
    · rw [List.isChain_append]
      refine ⟨hchain, List.isChain_singleton _, fun node hnode b hb => ?_⟩
      cases hb
      exact htodo node hnode _ List.mem_cons_self
    · intro node hnode a ha
      rw [List.getLast?_concat] at hnode
      cases hnode
      exact ha
  | descend _ _ _ _ _ ih =>
    exact ih hnodup hchain (fun node hnode a ha => htodo node hnode a (List.mem_cons_of_mem _ ha)) hr

/-! ### The answer -/

theorem isCycle_of_findCycle? (hg : g.WellFormed) {cycle : List Nat}
    (h : g.findCycle? = some cycle) : IsCycle g.Edge cycle := by
  have hrun := answers_findCycle? hg
  rw [h] at hrun
  exact Scans.isCycle hg hrun List.nodup_nil List.isChain_nil nofun rfl

/-- The search finds no cycle exactly if there is none. -/
theorem findCycle?_eq_none_iff (hg : g.WellFormed) :
    g.findCycle? = none ↔ ∀ x, ¬Relation.TransGen g.Edge x x := by
  constructor
  · intro h x hx
    have hrun := answers_findCycle? hg
    rw [h] at hrun
    obtain ⟨done, hrun⟩ := hrun
    -- A node with an edge is one of the graph, so the run has left it behind.
    obtain ⟨y, hxy, -⟩ := Relation.TransGen.head'_iff.mp hx
    have hmem := (hrun.subset rfl).2 (List.mem_range.mpr (hg.lt_size x y hxy).1)
    exact not_transGen_of_acc (hrun.acc nofun rfl x hmem) hx
  · intro h
    cases hfound : g.findCycle? with
    | none => rfl
    | some cycle =>
      obtain ⟨x, hx⟩ := (isCycle_of_findCycle? hg hfound).exists_transGen
      exact absurd hx (h x)

theorem findCycle?_dependencies_eq_none_iff {d : TypeDef} :
    (OpenType.dependencies d).findCycle? = none ↔ ∀ i, ¬Relation.TransGen d.DependsOn i i := by
  have hg : (OpenType.dependencies d).WellFormed := by
    rw [dependencies_eq_ofEdges]
    exact wellFormed_ofEdges _ _
  have hedge : (OpenType.dependencies d).Edge = d.DependsOn :=
    funext fun i => funext fun j => propext (edge_dependencies d i j)
  rw [findCycle?_eq_none_iff hg, hedge]

/-- A type is refused for a cycle if and only if the parameters of its definition have one. -/
theorem ofTy_eq_cyclicDependency_iff {ts : TypeSystem} {n : String} {d : TypeDef} {args : List Ty}
    (hd : ts.find? n = some d) (hargs : args = [] ∨ args.length = d.params.length) :
    (∃ text names, OpenType.ofTy ts (.named n args) = .error (.cyclicDependency text names)) ↔
      ∃ i, Relation.TransGen d.DependsOn i i := by
  have harity : (!args.isEmpty && args.length != d.params.length) = false := by
    rcases hargs with rfl | hlen
    · rfl
    · simp [hlen]
  have hnone := findCycle?_dependencies_eq_none_iff (d := d)
  simp only [OpenType.ofTy, hd, harity]
  cases hfound : (OpenType.dependencies d).findCycle? with
  | none =>
    have hacyclic := hnone.mp hfound
    constructor
    · rintro ⟨text, names, h⟩
      cases h
    · rintro ⟨i, hi⟩
      exact absurd hi (hacyclic i)
  | some cycle =>
    rw [hfound] at hnone
    refine ⟨fun _ => ?_, fun _ => ⟨_, _, rfl⟩⟩
    by_contra hacyclic
    exact nomatch hnone.mpr fun i hi => hacyclic ⟨i, hi⟩

/-- In every graph that can be built the search ends, finds nothing if and only if there is no cycle,
and else finds one. So types are refused exactly for the cycles of their parameters. -/
theorem findCycle?_decides :
    (∀ (nodes : Nat) (es : List (Nat × Nat)),
      (ofEdges nodes es).Answers (ofEdges nodes es).findCycle? ∧
      ((ofEdges nodes es).findCycle? = none ↔
        ∀ x, ¬Relation.TransGen (ofEdges nodes es).Edge x x) ∧
      ∀ cycle, (ofEdges nodes es).findCycle? = some cycle →
        IsCycle (ofEdges nodes es).Edge cycle) ∧
    ∀ (ts : TypeSystem) (n : String) (d : TypeDef) (args : List Ty), ts.find? n = some d →
      (args = [] ∨ args.length = d.params.length) →
      ((∃ text names, OpenType.ofTy ts (.named n args) = .error (.cyclicDependency text names)) ↔
        ∃ i, Relation.TransGen d.DependsOn i i) := by
  constructor
  · intro nodes es
    have hg := wellFormed_ofEdges nodes es
    exact ⟨answers_findCycle? hg, findCycle?_eq_none_iff hg, fun _ => isCycle_of_findCycle? hg⟩
  · intro ts n d args hd hargs
    exact ofTy_eq_cyclicDependency_iff hd hargs

namespace Sample

/-- A class `Knot<A, B: IEnumerable<C>, C: IEnumerable<B>>`. -/
def knot : TypeDef :=
  { TypeDef.new "Knot" .classType with
    params := [⟨"A", .none, []⟩,
      ⟨"B", .none, [.enumerable (.param ⟨"Knot", 2, "C"⟩)]⟩,
      ⟨"C", .none, [.enumerable (.param ⟨"Knot", 1, "B"⟩)]⟩] }

def types : TypeSystem := (Registry.builtin.register knot).types 16

end Sample

theorem findCycle?_decides_knot :
    IsCycle (ofEdges 3 [(0, 1), (1, 2), (1, 2), (2, 1), (2, 2)]).Edge [1, 2, 1] ∧
      Sample.types.find? "Knot" = some Sample.knot ∧
      ∃ i, Relation.TransGen Sample.knot.DependsOn i i := by
  obtain ⟨hgraph, htype⟩ := findCycle?_decides
  obtain ⟨-, -, hcycle⟩ := hgraph 3 [(0, 1), (1, 2), (1, 2), (2, 1), (2, 2)]
  have hrefused : OpenType.ofTy Sample.types (.named "Knot" []) =
      .error (.cyclicDependency "Knot<A, B, C>" ["B", "C", "B"]) := by rfl
  exact ⟨hcycle [1, 2, 1] (by decide), rfl,
    (htype Sample.types "Knot" Sample.knot [] rfl (.inl rfl)).mp ⟨_, _, hrefused⟩⟩

end DependencyGraph

end Introspect

/-!
Directed graphs over parameter positions, and the search for a cycle in them. An edge goes from a
parameter to one that its constraints mention.
-/

namespace Introspect

/-- The targets of each node in the order in which they were added. -/
structure DependencyGraph where
  edges : List (List Nat)

namespace DependencyGraph

def new (nodes : Nat) : DependencyGraph := ⟨List.replicate nodes []⟩

def size (g : DependencyGraph) : Nat := g.edges.length

def isEmpty (g : DependencyGraph) : Bool := g.edges.isEmpty

def neighbors (g : DependencyGraph) (node : Nat) : List Nat := g.edges[node]?.getD []

/-- Whether an edge is new: between two different nodes of the graph, and not there yet. -/
def canAdd (g : DependencyGraph) (source target : Nat) : Bool :=
  source != target && target < g.size && source < g.size && !(g.neighbors source).contains target

/-- Adds an edge if it is new. -/
def addEdge (g : DependencyGraph) (source target : Nat) : DependencyGraph :=
  if g.canAdd source target then ⟨g.edges.modify source (· ++ [target])⟩ else g

theorem size_addEdge (g : DependencyGraph) (source target : Nat) :
    (g.addEdge source target).size = g.size := by
  unfold addEdge
  split <;> simp [size]

theorem mem_neighbors_addEdge (g : DependencyGraph) (source target a b : Nat) :
    b ∈ (g.addEdge source target).neighbors a ↔
      b ∈ g.neighbors a ∨ (g.canAdd source target ∧ a = source ∧ b = target) := by
  unfold addEdge
  split
  next h =>
    have hs : source < g.edges.length := by
      simp only [canAdd, size, Bool.and_eq_true] at h
      exact of_decide_eq_true h.1.2
    simp only [neighbors, h, true_and]
    by_cases ha : a = source
    · subst ha
      simp [hs]
    · simp [ha, Ne.symm ha]
  next h => simp [h]

/-- Searches on from a node in depth, `path` being the way to it and `done` the nodes that are in no
cycle. Gives the nodes done after it, or a cycle as soon as an edge leads back into the path. The
nodes of a path differ, so a `fuel` of their number is never used up. -/
def visit (g : DependencyGraph) : (fuel : Nat) → (path done : List Nat) → Nat →
    Except (List Nat) (List Nat)
  | 0, _, done, _ => .ok done
  | fuel + 1, path, done, node => do
    let path := path ++ [node]
    let done ← (g.neighbors node).foldlM (fun done next =>
      if path.contains next then .error (path.dropWhile (· != next) ++ [next])
      else if done.contains next then .ok done
      else visit g fuel path done next) done
    return done ++ [node]

/-- The first cycle found, its first node repeated at its end. -/
def findCycle? (g : DependencyGraph) : Option (List Nat) :=
  let search := (List.range g.size).foldlM (fun done start =>
    if done.contains start then .ok done else g.visit g.size [] done start) []
  match search with
  | .ok _ => none
  | .error cycle => some cycle

end DependencyGraph

end Introspect

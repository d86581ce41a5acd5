/-
Reachability in a graph.

`Reaches` is reachability by edges of any kind. In a sound graph it is
what the breadth-first list of a graph holds.
-/
import Bytewise.Graph.Walk
import Bytewise.Proofs.Exploration
import Bytewise.Proofs.Graph.Sound

namespace Bytewise.Graph

/-- An edge of any kind leads from `a` to `b`. -/
def Leads (g : Graph) (a b : NodeId) : Prop :=
  b ∈ (g.node a).targets

/-- Some path of edges leads from `a` to `b`. -/
def Reaches (g : Graph) : NodeId → NodeId → Prop :=
  Relation.ReflTransGen g.Leads

variable {g : Graph} {root a b : NodeId}

theorem Reaches.refl : g.Reaches a a :=
  Relation.ReflTransGen.refl

theorem Reaches.step (h : g.Reaches root a) (hab : g.Leads a b) :
    g.Reaches root b :=
  Relation.ReflTransGen.tail h hab

theorem leads_iff_edge : g.Leads a b ↔ ∃ e ∈ (g.node a).allEdges,
    e.target = b :=
  List.mem_map

theorem leads_of_edge {e : Edge} (he : e ∈ (g.node a).allEdges) :
    g.Leads a e.target :=
  List.mem_map_of_mem he

/-- Keyed edges come before the otherwise edge. -/
theorem mem_allEdges {node : Node} {e : Edge} :
    e ∈ node.allEdges ↔ e ∈ node.edges ∨ node.otherwise = some e := by
  unfold Node.allEdges
  rw [List.mem_append, Option.mem_toList]

/-- Only nodes of the graph have edges. -/
theorem lt_of_mem_allEdges {e : Edge} (he : e ∈ (g.node a).allEdges) :
    a < g.size := by
  rcases Nat.lt_or_ge a g.size with hlt | hge
  · exact hlt
  · rw [node_of_ge hge] at he
    exact absurd he List.not_mem_nil

theorem lt_of_leads (h : g.Leads a b) : a < g.size := by
  obtain ⟨e, he, _⟩ := leads_iff_edge.mp h
  exact lt_of_mem_allEdges he

/-- The breadth-first list of a sound graph holds what its root reaches. -/
theorem Sound.mem_reachable (hg : g.Sound) : a ∈ g.reachable root
    ↔ g.Reaches root a := by
  unfold reachable
  rw [Exploration.mem_fromRoot]
  constructor
  · intro h
    exact h.lift id fun _ _ hxy => hxy.1
  · intro h
    exact h.lift id fun _ _ hxy => ⟨hxy, hg.target_lt hxy⟩

/-- What is reached from a node of a sound graph is a node of it. -/
theorem Sound.reaches_lt (hg : g.Sound) (hroot : root < g.size)
    (h : g.Reaches root a) :
    a < g.size := by
  cases h with
  | refl => exact hroot
  | tail _ hxy => exact hg.target_lt hxy

end Bytewise.Graph

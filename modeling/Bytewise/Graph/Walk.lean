/-
The nodes of a graph in breadth-first order.
-/
import Bytewise.Exploration
import Bytewise.Graph.Basic

namespace Bytewise.Graph

/-- The nodes that `root` leads to, `root` first, nearer nodes before farther
ones. -/
def reachable (g : Graph) (root : NodeId) : List NodeId :=
  Exploration.fromRoot g.size (fun id => (g.node id).targets) .queue root

end Bytewise.Graph

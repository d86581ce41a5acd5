/-
The states that a state leads to.
-/
import Bytewise.Exploration
import Bytewise.Machine.Basic

namespace Bytewise.Machine

/-- The states that `root` leads to by at least one edge, in order of their
discovery by a walk that looks at the edges of the state discovered last.
`root` is listed if it lies on a cycle. -/
def enumerate (m : Machine) (root : StateId) : List StateId :=
  Exploration.afterRoot m.size (fun id => (m.state id).targets) .stack root

end Bytewise.Machine

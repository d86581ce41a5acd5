/-
From a graph to a parser: the checks that need the whole graph, the
assembly of the machine, the removal of forwarding states, and the states
in which a call of the generated parser may end.
-/
import Bytewise.Graph.Loops
import Bytewise.Machine.Forwarding
import Bytewise.Parser.Assembly

namespace Bytewise

namespace Machine

/-- The states that `id` may leave as the one to go on in: itself if it waits
for input, and the state after it if it can stop with that one to go on. -/
def resumeTargets (m : Machine) (id : StateId) : List StateId :=
  let state := m.state id
  match state.kind, state.otherwise with
  | .consume _, _ | .empty, _ | .sequence, _ | .single, _ | .table, _
  | .spanStart .., _ => [id]
  | .pause .., some edge => [edge.target]
  | .spanEnd .., some edge =>
    if edge.noAdvance then [edge.target] else [edge.target, id]
  | _, _ => []

end Machine

namespace Parser

/-- What a graph whose options are usable is assembled into: its span slots,
the state of the root, and the assembly in the end. -/
def assembled (g : Graph) (root : NodeId) (symbolPrefix : String)
    (options : Options) :
    Except Cause ((List SpanSlot × StateId) × Assembly) := do
  options.validate
  g.checkLoops root
  let spans ← g.allocateSpans root
  let blueprint : Blueprint := { graph := g, options, spans }
  (blueprint.assemble root).run (Assembly.start symbolPrefix g.size)

/-- The parser of a graph whose options are usable, or the first thing that
forbids it. -/
def ofGraph (g : Graph) (root : NodeId) (symbolPrefix : String)
    (options : Options) :
    Except Cause Parser := do
  let ((slots, root), done) ← assembled g root symbolPrefix options
  let (machine, root) :=
    done.machine.skipForwarding root (done.machine.enumerate root)
  let live := root :: machine.enumerate root
  return {
    symbolPrefix, machine, root, slots
    properties := g.properties.toList
    resumable :=
      Machine.ascending (root :: live.flatMap machine.resumeTargets) }

end Parser

end Bytewise

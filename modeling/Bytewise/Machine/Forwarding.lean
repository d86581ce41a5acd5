/-
States that only pass on.

An empty state that goes on without consuming and without a value does
nothing when the parser runs. Edges into such states are redirected to
where those lead, until none is left, and the root is moved past them.
-/
import Bytewise.Machine.Basic

namespace Bytewise.Machine

/-- Where the state leads if it only passes on to another state. -/
def forwardTarget? (m : Machine) (id : StateId) : Option StateId :=
  let state := m.state id
  if state.kind == .empty && state.edges.isEmpty then
    match state.otherwise with
    | some edge =>
      if edge.noAdvance && edge.value.isNone && edge.target != id then
        some edge.target else none
    | none => none
  else none

/-- Redirects the edges of `id` that enter forwarding states by one step; tells
whether there were any. Edges are redirected in order, and each sees those
before it redirected. -/
def redirect (m : Machine) (id : StateId) : Machine × Bool :=
  (List.range (m.state id).allEdges.length).foldl (fun (m, changed) index =>
    match (m.state id).allEdges[index]? with
    | none => (m, changed)
    | some edge =>
      match m.forwardTarget? edge.target with
      | some next => (m.retarget id index next, true)
      | none => (m, changed)) (m, false)

/-- Redirects the edges of every state of `ids`; answers those that had any to
redirect. -/
def redirectAll (m : Machine) (ids : List StateId) : Machine × List StateId :=
  ids.foldl (fun (m, changed) id =>
    let (m, any) := m.redirect id
    (m, if any then changed ++ [id] else changed)) (m, [])

/-- Redirects in rounds, each over the states that the round before it
changed. -/
def redirectRounds : (rounds : Nat) → Machine → List StateId → Machine
  | 0, m, _ => m
  | _, m, [] => m
  | rounds + 1, m, ids =>
    let (m, changed) := m.redirectAll ids
    redirectRounds rounds m changed

/-- The state that `root` leads to by `steps` forwarding steps, or fewer if
they end. -/
def forwardRoot (m : Machine) : (steps : Nat) → (root : StateId) → StateId
  | 0, root => root
  | steps + 1, root =>
    match m.forwardTarget? root with
    | some next => forwardRoot m steps next
    | none => root

/-- A list in ascending order without repetition. -/
def ascending (ids : List StateId) : List StateId :=
  (ids.mergeSort fun a b => a ≤ b).eraseReps

/-- Redirects all edges of `root` and `ids` past forwarding states, and answers
the root's successor. -/
def skipForwarding (m : Machine) (root : StateId) (ids : List StateId) :
    Machine × StateId :=
  let m := redirectRounds (m.size + 1) m (ascending (root :: ids))
  (m, m.forwardRoot (m.size + 1) root)

end Bytewise.Machine

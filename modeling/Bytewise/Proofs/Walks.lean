/-
The two walks, exactly.

A graph is walked breadth first from its root, a machine depth first after
its root. Either walk lists what is reached and nothing else, once each:
the first with the root in front and nearer nodes before farther ones, the
second with the root only if some path leads back to it. Run with every
number checked and no more turns than there are nodes to take, both come to
the same lists, unless an edge on the way leads to what is not there.
-/
import Bytewise.Machine.Walk
import Bytewise.Proofs.Exploration.Checked
import Bytewise.Proofs.Exploration.Distance
import Bytewise.Proofs.Graph.Reach

namespace Bytewise

-- =============================================================== graphs

namespace Graph

variable {g : Graph} {root : NodeId}

/-- The walk of a graph with every number checked, and a turn for every
node. -/
def reachableChecked (g : Graph) (root : NodeId) : Option (List NodeId) :=
  Exploration.fromRootChecked g.size (fun id => (g.node id).targets)
    .queue root

/-- What `root` reaches, each node once, `root` first and nearer nodes before
farther ones. -/
structure NearestFirst (g : Graph) (root : NodeId) (listed : List NodeId) :
    Prop where
  reached : ∀ id, id ∈ listed ↔ g.Reaches root id
  once : listed.Nodup
  first : listed.head? = some root
  nearest : listed.Pairwise fun a b =>
    Exploration.distance g.Leads root a ≤ Exploration.distance g.Leads root b

/-- In a sound graph all edges lead to nodes. -/
theorem Sound.edge_eq (hg : g.Sound) :
    Exploration.Edge g.size (fun id => (g.node id).targets) = g.Leads := by
  funext a b
  exact propext ⟨fun h => h.1, fun h => ⟨h, hg.target_lt h⟩⟩

theorem Sound.nearestFirst (hg : g.Sound) (root : NodeId) :
    g.NearestFirst root (g.reachable root) where
  reached _ := hg.mem_reachable
  once := Exploration.nodup_fromRoot root
  first := Exploration.head_fromRoot root
  nearest := by
    have h :=
      Exploration.nearest_fromRoot g.size (fun id => (g.node id).targets) root
    rw [hg.edge_eq] at h
    exact h

/-- The walk of a sound graph passes its checks from every node. -/
theorem Sound.reachableChecked_eq_some_iff (hg : g.Sound) :
    g.reachableChecked root = some (g.reachable root) ↔ root < g.size := by
  refine Exploration.fromRootChecked_eq_some_iff.trans
    ⟨fun h => h root .refl, ?_⟩
  exact fun hroot id hid => hg.reaches_lt hroot hid

end Graph

-- ============================================================= machines

namespace Machine

variable {m : Machine} {root s : StateId}

/-- The walk of a machine with every number checked, a turn for every state and
one for `root`. -/
def enumerateChecked (m : Machine) (root : StateId) : Option (List StateId) :=
  Exploration.afterRootChecked m.size (fun id => (m.state id).targets)
    .stack root

/-- An edge leads from `a` to the state `b`. -/
def Leads (m : Machine) (a b : StateId) : Prop :=
  b ∈ (m.state a).targets ∧ b < m.size

theorem mem_enumerate : s ∈ m.enumerate root
    ↔ Relation.TransGen m.Leads root s :=
  Exploration.mem_afterRoot

theorem nodup_enumerate : (m.enumerate root).Nodup :=
  Exploration.nodup_afterRoot root

/-- The root is listed if it lies on a cycle. -/
theorem root_mem_enumerate :
    root ∈ m.enumerate root
        ↔ ∃ n, Exploration.Path m.Leads root (n + 1) root :=
  mem_enumerate.trans Exploration.transGen_iff_path

end Machine

-- ============================================================== results

/-- The walk of a built graph passes its checks from every node of it, and
lists what the root reaches, nearest first. The walk of a machine passes its
checks wherever all that edges name on the way are states of it, and lists what
the root leads to by one edge or more, once each; so the root is listed if and
only if it lies on a cycle. -/
theorem walks_exact {g : Graph} (hg : g.Built) (root : NodeId) (m : Machine)
    (start : StateId) :
    (g.reachableChecked root = some (g.reachable root) ↔ root < g.size)
    ∧ g.NearestFirst root (g.reachable root)
    ∧ (m.enumerateChecked start = some (m.enumerate start)
      ↔ ∀ s, Relation.ReflTransGen (fun a b => b ∈ (m.state a).targets) start
        s → s < m.size)
    ∧ (∀ s, s ∈ m.enumerate start ↔ Relation.TransGen m.Leads start s)
    ∧ (m.enumerate start).Nodup
    ∧ (start ∈ m.enumerate start
        ↔ ∃ n, Exploration.Path m.Leads start (n + 1) start) := by
  refine ⟨hg.sound.reachableChecked_eq_some_iff,
    hg.sound.nearestFirst root, ?_,
    fun _ => Machine.mem_enumerate, Machine.nodup_enumerate,
      Machine.root_mem_enumerate⟩
  exact Exploration.afterRootChecked_eq_some_iff

/-- Two ways to a last node and a way back, and a node that nothing leads
to. -/
def forked : Graph :=
  Build.replay [.node "start", .node "far", .node "near", .node "end",
    .node "apart",
    .matchKey 0 [0x61] 2, .otherwise 0 1, .skipTo 1 3, .skipTo 2 3,
      .skipTo 3 0, .skipTo 4 0] {}

/-- A state that leads on for good, and one that leads back to itself. -/
def settling : Machine where
  states := #[
    { name := "n_start", nodeName := "start", kind := .empty,
      otherwise := some (.otherwise 1 false) },
    { name := "n_rest", nodeName := "rest", kind := .empty,
      otherwise := some (.otherwise 1 false) }]

/-- The fork is listed with its end last, and the machine without its start. -/
theorem walks_exact_forked : forked.Built ∧ forked.NearestFirst 0 [0, 2, 1, 3]
    ∧ forked.reachableChecked 0 = some [0, 2, 1, 3]
    ∧ settling.enumerateChecked 0 = some [1]
    ∧ ¬ ∃ n, Exploration.Path settling.Leads 0 (n + 1) 0 := by
  have hbuilt : forked.Built := Graph.Built.new.replay (by decide +kernel)
  have hlisted : forked.reachable 0 = [0, 2, 1, 3] := by decide +kernel
  have hstates : settling.enumerate 0 = [1] := by decide +kernel
  obtain ⟨hchecked, hnearest, -, -, -, hcycle⟩ :=
    walks_exact hbuilt 0 settling 0
  rw [hlisted] at hchecked hnearest
  rw [hstates] at hcycle
  exact ⟨hbuilt, hnearest, hchecked.mpr (by decide +kernel), by decide +kernel,
    mt hcycle.mpr (by decide)⟩

end Bytewise

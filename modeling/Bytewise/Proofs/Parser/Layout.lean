/-
What the states of an assembled machine stand for.

A state stands for a node, or for a part of the trie of a match node; its
`Role` says which. A `Layout` holds the roles of all states and where an
edge to a node may lead. `Realizes` then compares one state with its role:
what it does, its keyed edges, its otherwise edge. It speaks of other
states only by their roles, so it lasts while the machine grows
(`Layout.Extends`), and while edges are moved to states that do as well.
-/
import Bytewise.Parser.Assembly
import Bytewise.Proofs.Code
import Bytewise.Proofs.Execution.Discipline
import Bytewise.Proofs.Graph.Reach
import Bytewise.Proofs.Trie.Scan

namespace Bytewise

-- ============================================================== roles

/-- What a state stands for. -/
inductive Role where
  /-- A node. -/
  | whole (id : NodeId)
  /-- A part of the trie of a match node. -/
  | part (id : NodeId) (t : Trie)

/-- The node that a state belongs to. -/
def Role.node : Role → NodeId
  | whole id => id
  | part id _ => id

/-- The roles of the states of a machine, and which states an edge to a node
may lead to. -/
structure Layout where
  machine : Machine
  roles : List Role
  lands : NodeId → StateId → Prop

/-- The code of a machine that a code of a graph is compiled to. -/
def Machine.Compiles (m : Machine) (code : Code) (id : CodeId) : Prop :=
  id < m.codes.size ∧ (m.code id).key = code.key
    ∧ Assembly.sameOperation (m.code id).kind code.kind = true

/-- Codes of one key are of one kind if and only if they are the same
operation. -/
theorem Assembly.sameOperation_iff {c d : Code} (h : c.key = d.key) :
    sameOperation c.kind d.kind = true ↔ c.kind = d.kind := by
  constructor
  · intro hsame
    rcases Code.key_eq_iff.mp h with ⟨hc, hd, -⟩ | ⟨-, -, hkind⟩
    · obtain ⟨s, hs⟩ := Code.exists_external hc
      obtain ⟨t, ht⟩ := Code.exists_external hd
      rw [hs, ht] at hsame ⊢
      have hname : s.name = t.name :=
        beq_iff_eq.mp (Bool.and_eq_true_iff.mp hsame).2
      cases s <;> cases t <;> first | rfl | exact absurd hname (by decide)
    · exact hkind
  · intro hkind
    rw [hkind]
    simp [sameOperation]

/-- What a code is compiled to is of its kind. -/
theorem Machine.Compiles.kind {m : Machine} {code : Code} {id : CodeId}
    (h : m.Compiles code id) :
    (m.code id).kind = code.kind :=
  (Assembly.sameOperation_iff h.2.1).mp h.2.2

namespace Layout

open Blueprint (leafValue)

/-- The state that an edge into a trie of the node `id` leads to. -/
def Below (l : Layout) (id : NodeId) : Trie → StateId → Prop
  | .leaf leaf, s => l.lands leaf.target s
  | t, s => l.roles[s]? = some (.part id t)

/-- The edge is that of a branch. -/
def IsBranch (l : Layout) (id : NodeId) (x : UInt8 × Bool × Trie)
    (edge : Machine.Edge) : Prop :=
  edge.noAdvance = x.2.1 ∧ edge.value = leafValue x.2.2
    ∧ l.Below id x.2.2 edge.target

/-- Edges that branch as a level of a trie of the node `id`, one or several
bytes to an edge. -/
structure Branching (l : Layout) (id : NodeId)
    (bs : List (UInt8 × Bool × Trie)) (edges : List Machine.Edge) : Prop where
  used : ∀ e ∈ edges, ∃ b, e.takes b = true
  branch : ∀ e ∈ edges, ∀ b, e.takes b = true → ∃ x ∈ bs, x.1 = b
    ∧ l.IsBranch id x e
  complete : ∀ x ∈ bs, ∃ e ∈ edges, e.takes x.1 = true

/-- A state with the keyed edges of a part of a trie of the node `id`. -/
def Keyed (l : Layout) (id : NodeId) : Trie → Machine.State → Prop
  | .leaf _, _ => False
  | .sequence literal child, state =>
      state.kind = .sequence ∧ ∃ edge, state.edges = [edge]
        ∧ edge.key = some (.bytes literal)
        ∧ edge.noAdvance = false ∧ edge.value = leafValue child
        ∧ l.Below id child edge.target
  | .single bs _, state =>
      (state.kind = .single ∨ state.kind = .table)
        ∧ l.Branching id bs state.edges

/-- A part of a trie reads keys. -/
theorem Keyed.dispatches {l : Layout} {id : NodeId} {t : Trie}
    {state : Machine.State}
    (h : l.Keyed id t state) : state.kind.Dispatches := by
  cases t with
  | leaf leaf => exact h.elim
  | sequence literal child =>
      obtain ⟨hkind, _⟩ := h
      rw [hkind]
      exact trivial
  | single bs fallback =>
      rcases h.1 with hkind | hkind
      · rw [hkind]
        exact trivial
      · rw [hkind]
        exact trivial

/-- The otherwise edge that a part of a trie has by itself. -/
def Fallback (l : Layout) : Trie → Option Machine.Edge → Prop
  | .single _ (some leaf), otherwise =>
      ∃ edge, otherwise = some edge ∧ edge.noAdvance = true
        ∧ edge.value = leaf.value
        ∧ l.lands leaf.target edge.target
  | _, otherwise => otherwise = none

/-- The edge of a machine that an otherwise edge of a graph becomes. -/
def IsOtherwise (l : Layout) (edge : Edge) (edge' : Machine.Edge) : Prop :=
  edge'.noAdvance = edge.noAdvance ∧ edge'.value = none
    ∧ l.lands edge.target edge'.target

/-- The otherwise edge of a part of a trie of a node in the end: its own, or
that of the node. -/
def Closed (l : Layout) (node : Node) : Trie → Option Machine.Edge → Prop
  | .single bs (some leaf), otherwise =>
    l.Fallback (.single bs (some leaf)) otherwise
  | _, otherwise =>
      ∃ edge edge', node.otherwise = some edge ∧ otherwise = some edge'
        ∧ l.IsOtherwise edge edge'

/-- The edge that a part of a trie goes on by if no key does: that of a key
which ends there, or the otherwise edge of the node without a value. -/
def closing? (node : Node) : Trie → Option Edge
  | .single _ (some leaf) => some ⟨none, leaf.target, true, leaf.value⟩
  | _ => node.otherwise.map ({ · with value := none })

/-- A trie is closed by the otherwise edge of its node, or by its own
fallback. -/
theorem closing_cases {node : Node} {t : Trie} {edge : Edge}
    (h : closing? node t = some edge) :
    (∃ other, node.otherwise = some other
      ∧ edge = { other with value := none })
      ∨ ∃ bs leaf, t = .single bs (some leaf)
          ∧ edge = ⟨none, leaf.target, true, leaf.value⟩ := by
  have hdefault : node.otherwise.map ({ · with value := none }) = some edge →
      ∃ other, node.otherwise = some other
          ∧ edge = { other with value := none } := by
    intro hmap
    obtain ⟨other, hother, rfl⟩ := Option.map_eq_some_iff.mp hmap
    exact ⟨other, hother, rfl⟩
  match t with
  | .leaf leaf => exact Or.inl (hdefault h)
  | .sequence literal child => exact Or.inl (hdefault h)
  | .single bs none => exact Or.inl (hdefault h)
  | .single bs (some leaf) =>
      exact Or.inr ⟨bs, leaf, rfl, (Option.some.inj h).symm⟩

/-- To be closed is to have an edge that does what the closing one does. -/
theorem closed_iff {l : Layout} {node : Node} {t : Trie}
    {otherwise : Option Machine.Edge} :
    l.Closed node t otherwise ↔ ∃ edge edge', closing? node t = some edge
      ∧ otherwise = some edge'
      ∧ edge'.noAdvance = edge.noAdvance ∧ edge'.value = edge.value
      ∧ l.lands edge.target edge'.target := by
  have hdefault : (∃ edge edge', node.otherwise = some edge
      ∧ otherwise = some edge'
      ∧ l.IsOtherwise edge edge') ↔ ∃ edge edge',
        node.otherwise.map ({ · with value := none }) = some edge
          ∧ otherwise = some edge'
          ∧ edge'.noAdvance = edge.noAdvance ∧ edge'.value = edge.value
          ∧ l.lands edge.target edge'.target := by
    constructor
    · intro hsome
      obtain ⟨edge, edge', hnode, hother, hlike⟩ := hsome
      refine ⟨{ edge with value := none }, edge', ?_, hother, hlike⟩
      rw [hnode]
      rfl
    · intro hsome
      obtain ⟨_, edge', hnode, hother, hlike⟩ := hsome
      obtain ⟨edge, hedge, rfl⟩ := Option.map_eq_some_iff.mp hnode
      exact ⟨edge, edge', hedge, hother, hlike⟩
  match t with
  | .leaf leaf => exact hdefault
  | .sequence literal child => exact hdefault
  | .single bs none => exact hdefault
  | .single bs (some leaf) =>
      constructor
      · intro hsome
        obtain ⟨edge', hother, hlike⟩ := hsome
        exact ⟨_, edge', rfl, hother, hlike⟩
      · intro hsome
        obtain ⟨_, edge', hleaf, hother, hlike⟩ := hsome
        obtain rfl := Option.some.inj hleaf
        exact ⟨edge', hother, hlike⟩

/-- What a node becomes that does not become a trie. -/
def KindFits (l : Layout) (bp : Blueprint) (node : Node) :
    Machine.StateKind → Prop
  | .empty => (∃ t, node.kind = .dispatch t) ∧ node.edges = []
  | .error code reason => node.kind = .error code reason
  | .pause code reason => node.kind = .pause code reason
  | .consume field => node.kind = .consume field
  | .invoke callee =>
    ∃ ref, node.kind = .invoke ref
      ∧ l.machine.Compiles (bp.graph.code ref) callee
  | .spanStart slot callback => ∃ span, node.kind = .spanStart span
      ∧ bp.spans.slot? span = some slot
      ∧ l.machine.Compiles (bp.graph.code (bp.graph.spanCallback span))
        callback
  | .spanEnd slot callback => ∃ span, node.kind = .spanEnd span
      ∧ bp.spans.slot? span = some slot
      ∧ l.machine.Compiles (bp.graph.code (bp.graph.spanCallback span))
        callback
  | _ => False

/-- The edge of an invoke state that an edge of a graph becomes. -/
def IsCodeEdge (l : Layout) (edge : Edge) (edge' : Machine.Edge) : Prop :=
  (∃ code, edge.key = some (.code code) ∧ edge'.key = some (.code code))
    ∧ edge'.noAdvance = true ∧ edge'.value = none
    ∧ l.lands edge.target edge'.target

/-- A state with the keyed edges of a node, if it is one that calls. -/
structure CodeEdges (l : Layout) (node : Node) (edges : List Machine.Edge) :
    Prop where
  made : ∀ e' ∈ edges, ∃ e ∈ node.edges, l.IsCodeEdge e e'
  complete : (∃ ref, node.kind = .invoke ref) → ∀ e ∈ node.edges, ∃ e' ∈ edges,
    l.IsCodeEdge e e'

/-- A state that does what its role says. -/
inductive Realizes (l : Layout) (bp : Blueprint) :
    Role → Machine.State → Prop where
  | whole {id : NodeId} {state : Machine.State}
      (kind : l.KindFits bp (bp.graph.node id) state.kind)
      (edges : l.CodeEdges (bp.graph.node id) state.edges)
      (otherwise : ∀ edge, (bp.graph.node id).otherwise = some edge →
        ∃ edge', state.otherwise = some edge' ∧ l.IsOtherwise edge edge')
      (ends : (bp.graph.node id).otherwise = none →
        state.otherwise = none ∧ ∃ code reason, (bp.graph.node id).kind
          = .error code reason) :
      Realizes l bp (.whole id) state
  | part {id : NodeId} {t : Trie} {state : Machine.State}
      (transform : (bp.graph.node id).kind = .dispatch state.transform)
      (keyed : l.Keyed id t state)
        (otherwise : l.Closed (bp.graph.node id) t state.otherwise) :
      Realizes l bp (.part id t) state

/-- A state that does not read keys does what its node becomes. -/
theorem Realizes.kindFits {l : Layout} {bp : Blueprint} {role : Role}
    {state : Machine.State} (h : l.Realizes bp role state)
    (hkind : ¬ state.kind.Dispatches) :
    l.KindFits bp (bp.graph.node role.node) state.kind := by
  cases h with
  | whole kind edges otherwise ends => exact kind
  | part transform keyed otherwise => exact absurd keyed.dispatches hkind

-- ========================================================== extension

/-- A layout with all that another has. -/
structure Extends (l l' : Layout) : Prop where
  codesSize : l.machine.codes.size ≤ l'.machine.codes.size
  codes : ∀ c, c < l.machine.codes.size → l'.machine.code c = l.machine.code c
  roles : ∀ (s : StateId) (role : Role), l.roles[s]? = some role →
    l'.roles[s]? = some role
  lands : ∀ n s, l.lands n s → l'.lands n s

variable {l l' l'' : Layout} {bp : Blueprint} {id : NodeId}

theorem Extends.trans (h : l.Extends l') (h' : l'.Extends l'') :
    l.Extends l'' where
  codesSize := Nat.le_trans h.codesSize h'.codesSize
  codes c hc := (h'.codes c (Nat.lt_of_lt_of_le hc h.codesSize)).trans
    (h.codes c hc)
  roles s role hs := h'.roles s role (h.roles s role hs)
  lands n s hs := h'.lands n s (h.lands n s hs)

/-- Codes are still what was compiled for them. -/
theorem Extends.compiles (h : l.Extends l') {code : Code} {c : CodeId}
    (hc : l.machine.Compiles code c) : l'.machine.Compiles code c := by
  obtain ⟨hlt, hkey, hsame⟩ := hc
  refine ⟨Nat.lt_of_lt_of_le hlt h.codesSize, ?_, ?_⟩
  · rw [h.codes c hlt]
    exact hkey
  · rw [h.codes c hlt]
    exact hsame

/-- States still stand for the tries below a node. -/
theorem Extends.below (h : l.Extends l') {t : Trie} {s : StateId}
    (hs : l.Below id t s) :
    l'.Below id t s := by
  cases t with
  | leaf leaf => exact h.lands _ _ hs
  | sequence literal child => exact h.roles _ _ hs
  | single bs fallback => exact h.roles _ _ hs

/-- Edges are still for their branches. -/
theorem Extends.isBranch (h : l.Extends l') {x : UInt8 × Bool × Trie}
    {edge : Machine.Edge}
    (he : l.IsBranch id x edge) : l'.IsBranch id x edge :=
  ⟨he.1, he.2.1, h.below he.2.2⟩

/-- All branches still have their edges. -/
theorem Extends.branching (h : l.Extends l') {bs : List (UInt8 × Bool × Trie)}
    {edges : List Machine.Edge} (hb : l.Branching id bs edges) :
    l'.Branching id bs edges where
  used := hb.used
  branch e he b htakes := by
    obtain ⟨x, hx, hbyte, hbranch⟩ := hb.branch e he b htakes
    exact ⟨x, hx, hbyte, h.isBranch hbranch⟩
  complete := hb.complete

/-- Keys still lead where the trie says. -/
theorem Extends.keyed (h : l.Extends l') {t : Trie} {state : Machine.State}
    (hk : l.Keyed id t state) : l'.Keyed id t state := by
  cases t with
  | leaf leaf => exact hk
  | sequence literal child =>
      obtain ⟨hkind, edge, hedges, hkey, hadvance, hvalue, hbelow⟩ := hk
      exact ⟨hkind, edge, hedges, hkey, hadvance, hvalue, h.below hbelow⟩
  | single bs fallback => exact ⟨hk.1, h.branching hk.2⟩

/-- Fallbacks still lead where the trie says. -/
theorem Extends.fallback (h : l.Extends l') {t : Trie}
    {otherwise : Option Machine.Edge}
    (hf : l.Fallback t otherwise) : l'.Fallback t otherwise := by
  cases t with
  | leaf leaf => exact hf
  | sequence literal child => exact hf
  | single bs fallback =>
      cases fallback with
      | none => exact hf
      | some leaf =>
          obtain ⟨edge, hedge, hstays, hvalue, hlands⟩ := hf
          exact ⟨edge, hedge, hstays, hvalue, h.lands _ _ hlands⟩

/-- Otherwise edges still lead where those of the nodes do. -/
theorem Extends.isOtherwise (h : l.Extends l') {edge : Edge}
    {edge' : Machine.Edge}
    (he : l.IsOtherwise edge edge') : l'.IsOtherwise edge edge' :=
  ⟨he.1, he.2.1, h.lands _ _ he.2.2⟩

/-- States are still closed as their nodes say. -/
theorem Extends.closed (h : l.Extends l') {node : Node} {t : Trie}
    {otherwise : Option Machine.Edge} (hc : l.Closed node t otherwise) :
    l'.Closed node t otherwise := by
  obtain ⟨edge, edge', hclosing, hother, hstays, hvalue, hlands⟩ :=
    closed_iff.mp hc
  exact closed_iff.mpr ⟨edge, edge', hclosing, hother, hstays, hvalue,
    h.lands _ _ hlands⟩

/-- Kinds still fit those of the nodes. -/
theorem Extends.kindFits (h : l.Extends l') {node : Node}
    {kind : Machine.StateKind}
    (hk : l.KindFits bp node kind) : l'.KindFits bp node kind := by
  cases kind with
  | invoke callee =>
      obtain ⟨ref, hkind, hcode⟩ := hk
      exact ⟨ref, hkind, h.compiles hcode⟩
  | spanStart slot callback =>
      obtain ⟨span, hkind, hslot, hcode⟩ := hk
      exact ⟨span, hkind, hslot, h.compiles hcode⟩
  | spanEnd slot callback =>
      obtain ⟨span, hkind, hslot, hcode⟩ := hk
      exact ⟨span, hkind, hslot, h.compiles hcode⟩
  | _ => exact hk

/-- Edges for codes still lead where those of the nodes do. -/
theorem Extends.isCodeEdge (h : l.Extends l') {edge : Edge}
    {edge' : Machine.Edge}
    (he : l.IsCodeEdge edge edge') : l'.IsCodeEdge edge edge' :=
  ⟨he.1, he.2.1, he.2.2.1, h.lands _ _ he.2.2.2⟩

theorem Extends.codeEdges (h : l.Extends l') {node : Node}
    {edges : List Machine.Edge}
    (he : l.CodeEdges node edges) : l'.CodeEdges node edges where
  made e' he' := by
    obtain ⟨e, hmem, hedge⟩ := he.made e' he'
    exact ⟨e, hmem, h.isCodeEdge hedge⟩
  complete hinvoke e hmem := by
    obtain ⟨e', he', hedge⟩ := he.complete hinvoke e hmem
    exact ⟨e', he', h.isCodeEdge hedge⟩

/-- What a state realizes, it realizes in any larger layout. -/
theorem Extends.realizes (h : l.Extends l') {role : Role}
    {state : Machine.State}
    (hr : l.Realizes bp role state) : l'.Realizes bp role state := by
  cases hr with
  | whole kind edges otherwise ends =>
      refine .whole (h.kindFits kind) (h.codeEdges edges)
        (fun edge hedge => ?_) ends
      obtain ⟨edge', hedge', hother⟩ := otherwise edge hedge
      exact ⟨edge', hedge', h.isOtherwise hother⟩
  | part transform keyed otherwise =>
      exact .part transform (h.keyed keyed) (h.closed otherwise)

end Layout

end Bytewise

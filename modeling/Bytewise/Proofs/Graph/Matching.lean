/-
Graphs whose nodes correspond.

Whatever numbers them, nodes correspond that are called alike and do the
same, with edges that lead one by one to nodes that correspond. How codes
and spans are told to be the same is left to relations of their own. Two
graphs match if their nodes do, one to one, and their spans, in one order;
then they list what matched roots lead to in one order.
-/
import Bytewise.Graph.Spans
import Bytewise.Proofs.Matching
import Bytewise.Proofs.Graph.Reach

namespace Bytewise

/-- The edges apply alike and lead to corresponding nodes. -/
structure Edge.Matches (m : NodeId → NodeId → Prop) (e e' : Edge) : Prop where
  key : e.key = e'.key
  target : m e.target e'.target
  noAdvance : e.noAdvance = e'.noAdvance
  value : e.value = e'.value

/-- The nodes do the same, up to the numbering of codes and spans. -/
inductive NodeKind.Matches (codes : CodeRef → CodeRef → Prop)
    (spans : SpanId → SpanId → Prop) :
    NodeKind → NodeKind → Prop where
  | dispatch (transform : Option Transform) :
      NodeKind.Matches codes spans (.dispatch transform) (.dispatch transform)
  | error (code : Int32) (reason : String) :
      NodeKind.Matches codes spans (.error code reason) (.error code reason)
  | pause (code : Int32) (reason : String) :
      NodeKind.Matches codes spans (.pause code reason) (.pause code reason)
  | consume (field : String) : NodeKind.Matches codes spans (.consume field)
      (.consume field)
  | invoke {ref ref' : CodeRef} (same : codes ref ref') :
      NodeKind.Matches codes spans (.invoke ref) (.invoke ref')
  | spanStart {span span' : SpanId} (same : spans span span') :
      NodeKind.Matches codes spans (.spanStart span) (.spanStart span')
  | spanEnd {span span' : SpanId} (same : spans span span') :
      NodeKind.Matches codes spans (.spanEnd span) (.spanEnd span')

/-- The nodes are called alike, do the same, and have edges that match one by
one. -/
structure Node.Matches (m : NodeId → NodeId → Prop)
    (codes : CodeRef → CodeRef → Prop) (spans : SpanId → SpanId → Prop)
    (node node' : Node) : Prop where
  name : node.name = node'.name
  kind : node.kind.Matches codes spans node'.kind
  edges : List.Forall₂ (Edge.Matches m) node.edges node'.edges
  otherwise : Option.Rel (Edge.Matches m) node.otherwise node'.otherwise

section

variable {m : NodeId → NodeId → Prop} {codes : CodeRef → CodeRef → Prop}
  {spans : SpanId → SpanId → Prop} {node node' : Node}

theorem Node.Matches.refl (node : Node) : Node.Matches Eq Eq Eq node node := by
  obtain ⟨name, kind, edges, otherwise⟩ := node
  have hedge : ∀ edge, Edge.Matches Eq edge edge :=
    fun _ => ⟨rfl, rfl, rfl, rfl⟩
  refine ⟨rfl, ?_, List.forall₂_same.mpr fun edge _ => hedge edge, ?_⟩
  · cases kind with
    | dispatch t => exact .dispatch t
    | error code reason => exact .error code reason
    | pause code reason => exact .pause code reason
    | consume field => exact .consume field
    | invoke ref => exact .invoke rfl
    | spanStart span => exact .spanStart rfl
    | spanEnd span => exact .spanEnd rfl
  · cases otherwise with
    | none => exact .none
    | some edge => exact .some (hedge edge)

/-- Nodes that match still do if their targets, codes and spans are matched in
another way. -/
theorem Node.Matches.imp {m' : NodeId → NodeId → Prop}
    {codes' : CodeRef → CodeRef → Prop} {spans' : SpanId → SpanId → Prop}
    (h : Node.Matches m codes spans node node')
    (htargets : ∀ n n', n ∈ node.targets → m n n' → m' n n')
    (hcodes : ∀ c c', codes c c' → codes' c c')
    (hspans : ∀ s s', node.span? = some s → spans s s' → spans' s s') :
    Node.Matches m' codes' spans' node node' := by
  have hedge : ∀ e e', e ∈ node.allEdges ∧ Edge.Matches m e e' →
      Edge.Matches m' e e' :=
    fun e e' ⟨he, hmatch⟩ => ⟨hmatch.key,
      htargets _ _ (List.mem_map_of_mem he) hmatch.target, hmatch.noAdvance,
        hmatch.value⟩
  obtain ⟨name, kind, edges, otherwise⟩ := node
  obtain ⟨name', kind', edges', otherwise'⟩ := node'
  obtain ⟨hname, hkind, hedges, hother⟩ := h
  refine ⟨hname, ?_, ?_, ?_⟩
  · cases hkind with
    | dispatch t => exact .dispatch t
    | error code reason => exact .error code reason
    | pause code reason => exact .pause code reason
    | consume field => exact .consume field
    | invoke same => exact .invoke (hcodes _ _ same)
    | spanStart same => exact .spanStart (hspans _ _ rfl same)
    | spanEnd same => exact .spanEnd (hspans _ _ rfl same)
  · refine ((List.forall₂_and_left edges edges').mpr
      ⟨fun e he => ?_, hedges⟩).imp hedge
    exact List.mem_append_left _ he
  · cases hother with
    | none => exact .none
    | some hmatch =>
        exact .some
          (hedge _ _
          ⟨List.mem_append_right _ (List.mem_singleton.mpr rfl), hmatch⟩)

/-- Matching nodes have matching edges, the otherwise edge included. -/
theorem Node.Matches.allEdges (h : Node.Matches m codes spans node node') :
    List.Forall₂ (Edge.Matches m) node.allEdges node'.allEdges := by
  obtain ⟨_, _, edges, otherwise⟩ := node
  obtain ⟨_, _, edges', otherwise'⟩ := node'
  obtain ⟨_, _, hedges, hother⟩ := h
  refine List.rel_append hedges ?_
  cases hother with
  | none => exact .nil
  | some hedge => exact .cons hedge .nil

theorem Node.Matches.targets (h : Node.Matches m codes spans node node') :
    List.Forall₂ m node.targets node'.targets := by
  unfold Node.targets
  rw [List.forall₂_map_left_iff, List.forall₂_map_right_iff]
  exact h.allEdges.imp fun edge edge' hedge => hedge.target

theorem Node.Matches.isTerminal (h : Node.Matches m codes spans node node') :
    node.isTerminal = node'.isTerminal := by
  obtain ⟨_, _, edges, otherwise⟩ := node
  obtain ⟨_, _, edges', otherwise'⟩ := node'
  obtain ⟨_, _, hedges, hother⟩ := h
  cases hedges <;> cases hother <;> rfl

end

/-- Graphs whose nodes are matched one to one, and whose spans are, in the same
order. -/
structure Graph.Matches (m : NodeId → NodeId → Prop)
    (spans : SpanId → SpanId → Prop) (g g' : Graph) : Prop where
  left : g.Sound
  right : g'.Sound
  unique : Relator.BiUnique m
  inside : ∀ n n', m n n' → n < g.size ∧ n' < g'.size
  nodes : ∀ n n', m n n' → Node.Matches m (fun c c' => g.code c = g'.code c')
    spans (g.node n)
    (g'.node n')
  ordered : ∀ s s' t t', spans s s' → spans t t' → (s < t ↔ s' < t')
  callbacks : ∀ s s', spans s s' →
    g.code (g.spanCallback s) = g'.code (g'.spanCallback s')

namespace Graph.Matches

variable {m : NodeId → NodeId → Prop} {spans : SpanId → SpanId → Prop}
  {g g' : Graph} {root root' : NodeId}

/-- Spans that are matched in order are matched one to one. -/
theorem uniqueSpans (h : Graph.Matches m spans g g') :
    Relator.BiUnique spans := by
  refine ⟨fun s t s' hs ht => ?_, fun s s' t' hs ht => ?_⟩
  · exact Nat.le_antisymm
      (Nat.not_lt.mp fun hlt => Nat.lt_irrefl s'
        ((h.ordered t s' s s' ht hs).mp hlt))
      (Nat.not_lt.mp fun hlt => Nat.lt_irrefl s'
        ((h.ordered s s' t s' hs ht).mp hlt))
  · exact Nat.le_antisymm
      (Nat.not_lt.mp fun hlt => Nat.lt_irrefl s
        ((h.ordered s t' s s' ht hs).mpr hlt))
      (Nat.not_lt.mp fun hlt => Nat.lt_irrefl s
        ((h.ordered s s' s t' hs ht).mpr hlt))

theorem spanName (h : Graph.Matches m spans g g') {s s' : SpanId}
    (hs : spans s s') :
    g.spanName s = g'.spanName s' :=
  congrArg Code.name (h.callbacks s s' hs)

/-- Matched nodes are reached in matched order. -/
theorem reachable (h : Graph.Matches m spans g g') (hroot : m root root') :
    List.Forall₂ m (g.reachable root) (g'.reachable root') :=
  Exploration.fromRoot_matches h.unique
    (fun n n' hn => (h.nodes n n' hn).targets) .queue h.inside
    hroot

theorem name (h : Graph.Matches m spans g g') {n n' : NodeId} (hn : m n n') :
    (g.node n).name = (g'.node n').name :=
  (h.nodes n n' hn).name

end Graph.Matches

end Bytewise

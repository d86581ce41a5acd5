/-
What every built graph satisfies.

`Sound` collects, node by node, what the builder checks when it adds an
edge: the target exists and takes what the edge brings, the key is one
that the node's kind can have and no other edge has it, the otherwise edge
has no key. It survives later changes because these only extend a graph
(`Extends`): nodes stay and keep their kind, codes and spans stay what
they are.
-/
import Bytewise.Proofs.Graph.Calls

namespace Bytewise

-- ========================================================== soundness

/-- A node with which the builder finds no fault. -/
structure Node.Sound (g : Graph) (node : Node) : Prop where
  kind : g.KindFits node.kind
  targets : ∀ e ∈ node.allEdges, e.target < g.size
  values : ∀ e ∈ node.allEdges, Build.targetFault? g (g.node e.target).kind
    e.value = none
  keyed : ∀ e ∈ node.edges, Graph.EdgeFits e node.kind
  distinct : node.edges.Pairwise fun a b => a.key ≠ b.key
  otherwise : ∀ e ∈ node.otherwise, Graph.OtherwiseFits e node.kind

namespace Graph

/-- A graph with which the builder finds no fault. -/
structure Sound (g : Graph) : Prop where
  nodes : ∀ id, id < g.size → (g.node id).Sound g
  spans : ∀ span, span < g.spans.size →
    g.spanCallback span < g.codes.size
      ∧ (g.code (g.spanCallback span)).signature = .span

-- ========================================================== extension

/-- Two kinds that differ in the transform of a dispatch at most. -/
def SameKind (a b : NodeKind) : Prop :=
  a = b ∨ ∃ s t, a = .dispatch s ∧ b = .dispatch t

/-- A graph that has all that `g` has, under the same handles. -/
structure Extends (g g' : Graph) : Prop where
  size : g.size ≤ g'.size
  kinds : ∀ id, id < g.size → SameKind (g.node id).kind (g'.node id).kind
  codes : ∀ ref, ref < g.codes.size → g'.code ref = g.code ref
  codesSize : g.codes.size ≤ g'.codes.size
  callbacks : ∀ span, span < g.spans.size →
    g'.spanCallback span = g.spanCallback span
  spansSize : g.spans.size ≤ g'.spans.size

theorem SameKind.refl (kind : NodeKind) : SameKind kind kind := Or.inl rfl

/-- Below the old size a push changes nothing. -/
theorem node_push_of_lt {g : Graph} {id : NodeId} (hid : id < g.size)
    (node : Node) :
    ({ g with nodes := g.nodes.push node } : Graph).node id = g.node id := by
  have hid' : id < g.nodes.size := hid
  simp [Graph.node, Array.getD, hid', Nat.lt_succ_of_lt hid',
    Array.getElem_push_lt hid']

/-- Changing one node changes that node. -/
theorem node_modify {g : Graph} {id : NodeId} (hid : id < g.size) (i : NodeId)
    (change : Node → Node) :
    ({ g with nodes := g.nodes.modify i change } : Graph).node id
      = if i = id then change (g.node id) else g.node id := by
  have hid' : id < g.nodes.size := hid
  simp [Graph.node, Array.getD, hid', Array.getElem_modify]

/-- Changing one node in a way that leaves its kind extends the graph. -/
theorem extends_modify {g : Graph} (i : NodeId) {change : Node → Node}
    (same : i < g.size → SameKind (g.node i).kind (change (g.node i)).kind) :
    Extends g { g with nodes := g.nodes.modify i change } where
  size := by simp [Graph.size]
  kinds := by
    intro id hid
    rw [node_modify hid]
    split
    · rename_i h
      subst h
      exact same hid
    · exact SameKind.refl _
  codes _ _ := rfl
  codesSize := Nat.le_refl _
  callbacks _ _ := rfl
  spansSize := Nat.le_refl _

/-- Every change extends the graph. -/
theorem Change.extends {g g' : Graph} (h : Change g g') : Extends g g' := by
  cases h with
  | node name fits =>
      exact {
        size := by simp [Graph.size]
        kinds := fun id hid => by
          rw [node_push_of_lt hid]
          exact SameKind.refl _
        codes := fun _ _ => rfl
        codesSize := Nat.le_refl _
        callbacks := fun _ _ => rfl
        spansSize := Nat.le_refl _ }
  | rename id name => exact extends_modify id fun _ => SameKind.refl _
  | transform t kind =>
      exact extends_modify _ fun _ => Or.inr ⟨_, _, kind, rfl⟩
  | code name kind =>
      exact {
        size := Nat.le_refl _
        kinds := fun _ _ => SameKind.refl _
        codes := fun ref href => by
          simp [Graph.code, Array.getD, href, Nat.lt_succ_of_lt href,
            Array.getElem_push_lt href]
        codesSize := by simp
        callbacks := fun _ _ => rfl
        spansSize := Nat.le_refl _ }
  | span known signature =>
      exact {
        size := Nat.le_refl _
        kinds := fun _ _ => SameKind.refl _
        codes := fun _ _ => rfl
        codesSize := Nat.le_refl _
        callbacks := fun s hs => by
          simp [Graph.spanCallback, Array.getD, hs, Nat.lt_succ_of_lt hs,
            Array.getElem_push_lt hs]
        spansSize := by simp }
  | property type identifier free fresh =>
      exact ⟨Nat.le_refl _, fun _ _ => SameKind.refl _, fun _ _ => rfl,
        Nat.le_refl _, fun _ _ => rfl, Nat.le_refl _⟩
  | edge known fits target fresh =>
      exact extends_modify _ fun _ => SameKind.refl _
  | otherwise known fits target fresh =>
      exact extends_modify _ fun _ => SameKind.refl _
  | cacheStart kind edge =>
      exact ⟨Nat.le_refl _, fun _ _ => SameKind.refl _, fun _ _ => rfl,
        Nat.le_refl _, fun _ _ => rfl, Nat.le_refl _⟩
  | cacheEnd kind edge =>
      exact ⟨Nat.le_refl _, fun _ _ => SameKind.refl _, fun _ _ => rfl,
        Nat.le_refl _, fun _ _ => rfl, Nat.le_refl _⟩

-- ======================================================== preservation

theorem KindFits.extend {g g' : Graph} (h : Extends g g') {kind : NodeKind}
    (hk : g.KindFits kind) : g'.KindFits kind := by
  cases kind with
  | invoke code =>
      refine ⟨Nat.lt_of_lt_of_le hk.1 h.codesSize, ?_⟩
      rw [h.codes code hk.1]
      exact hk.2
  | spanStart span => exact Nat.lt_of_lt_of_le hk h.spansSize
  | spanEnd span => exact Nat.lt_of_lt_of_le hk h.spansSize
  | _ => trivial

/-- What an edge may bring to its target does not depend on later changes. -/
theorem targetFault_extend {g g' : Graph} (h : Extends g g') {id : NodeId}
    (hid : id < g.size) (hk : g.KindFits (g.node id).kind)
    (value : Option Int64) :
    Build.targetFault? g' (g'.node id).kind value = Build.targetFault? g
        (g.node id).kind value := by
  rcases h.kinds id hid with hsame | ⟨s, t, hs, ht⟩
  · rw [← hsame]
    unfold Build.targetFault?
    cases hkind : (g.node id).kind with
    | invoke code =>
        rw [hkind] at hk
        dsimp only
        rw [h.codes code hk.1]
    | _ => rfl
  · rw [hs, ht]
    rfl

end Graph

theorem Node.Sound.extend {g g' : Graph} (h : Graph.Extends g g')
    (hg : g.Sound) {node : Node} (hn : node.Sound g) : node.Sound g' where
  kind := hn.kind.extend h
  targets e he := Nat.lt_of_lt_of_le (hn.targets e he) h.size
  values e he := by
    have hlt := hn.targets e he
    rw [Graph.targetFault_extend h hlt (hg.nodes _ hlt).kind]
    exact hn.values e he
  keyed := hn.keyed
  distinct := hn.distinct
  otherwise := hn.otherwise

/-- A new node has no edges to find fault with. -/
theorem Node.Sound.bare {g : Graph} (name : String) {kind : NodeKind}
    (fits : g.KindFits kind) :
    Node.Sound g { name, kind } where
  kind := fits
  targets e he := by simp [Node.allEdges] at he
  values e he := by simp [Node.allEdges] at he
  keyed e he := by simp at he
  distinct := List.Pairwise.nil
  otherwise e he := by simp at he

/-- A keyed edge that the builder adds. -/
theorem Node.Sound.addEdge {g : Graph} {node : Node} (hn : node.Sound g)
    {edge : Edge} (known : edge.target < g.size)
    (fits : Graph.EdgeFits edge node.kind)
    (target : Build.targetFault? g (g.node edge.target).kind edge.value = none)
    (fresh : ∀ e ∈ node.edges, e.key ≠ edge.key) :
    Node.Sound g { node with edges := node.edges ++ [edge] } where
  kind := hn.kind
  targets e he := by
    simp only [Node.allEdges, List.append_assoc, List.mem_append,
      List.mem_singleton] at he
    rcases he with he | rfl | he
    · exact hn.targets e (List.mem_append_left _ he)
    · exact known
    · exact hn.targets e (List.mem_append_right _ he)
  values e he := by
    simp only [Node.allEdges, List.append_assoc, List.mem_append,
      List.mem_singleton] at he
    rcases he with he | rfl | he
    · exact hn.values e (List.mem_append_left _ he)
    · exact target
    · exact hn.values e (List.mem_append_right _ he)
  keyed e he := by
    rcases List.mem_append.mp he with he | he
    · exact hn.keyed e he
    · rw [List.mem_singleton.mp he]
      exact fits
  distinct := by
    refine List.pairwise_append.mpr
      ⟨hn.distinct, List.pairwise_singleton _ _, ?_⟩
    intro a ha b hb
    rw [List.mem_singleton.mp hb]
    exact fresh a ha
  otherwise := hn.otherwise

/-- An otherwise edge that the builder sets. -/
theorem Node.Sound.putOtherwise {g : Graph} {node : Node} (hn : node.Sound g)
    {edge : Edge} (known : edge.target < g.size)
    (fits : Graph.OtherwiseFits edge node.kind)
    (target : Build.targetFault? g (g.node edge.target).kind edge.value
      = none) :
    Node.Sound g { node with otherwise := some edge } where
  kind := hn.kind
  targets e he := by
    rcases List.mem_append.mp he with he | he
    · exact hn.targets e (List.mem_append_left _ he)
    · rw [List.mem_singleton.mp he]
      exact known
  values e he := by
    rcases List.mem_append.mp he with he | he
    · exact hn.values e (List.mem_append_left _ he)
    · rw [List.mem_singleton.mp he]
      exact target
  keyed := hn.keyed
  distinct := hn.distinct
  otherwise e he := by
    obtain rfl : edge = e := Option.some.inj he
    exact fits

/-- The transform of a dispatch has no part in soundness. -/
theorem Node.Sound.transform {g : Graph} {node : Node} (hn : node.Sound g)
    {old : Option Transform} (hkind : node.kind = .dispatch old)
    (t : Option Transform) :
    Node.Sound g { node with kind := .dispatch t } where
  kind := trivial
  targets := hn.targets
  values := hn.values
  keyed e he := by
    have := hn.keyed e he
    rw [hkind] at this
    exact this
  distinct := hn.distinct
  otherwise e he := by
    have := hn.otherwise e he
    rw [hkind] at this
    exact this

namespace Graph

/-- Changing one node keeps a graph sound if that node stays sound. -/
theorem Sound.modify {g : Graph} (hg : g.Sound) {i : NodeId}
    {change : Node → Node}
    (same : i < g.size → SameKind (g.node i).kind (change (g.node i)).kind)
    (sound : i < g.size → (change (g.node i)).Sound g) :
    Sound { g with nodes := g.nodes.modify i change } where
  nodes id hid := by
    have hid' : id < g.size := by simpa [Graph.size] using hid
    rw [node_modify hid']
    split
    · rename_i h
      subst h
      exact (sound hid').extend (extends_modify i same) hg
    · exact (hg.nodes id hid').extend (extends_modify i same) hg
  spans := hg.spans

/-- Soundness survives every change. -/
theorem Sound.change {g g' : Graph} (h : Change g g') (hg : g.Sound) :
    g'.Sound := by
  have hext := h.extends
  cases h with
  | node name fits =>
      refine ⟨fun id hid => ?_, hg.spans⟩
      rcases Nat.lt_or_ge id g.size with hlt | hge
      · rw [node_push_of_lt hlt]
        exact (hg.nodes id hlt).extend hext hg
      · have hid' : id = g.size := by
          have : id < g.size + 1 := by simpa [Graph.size] using hid
          omega
        subst hid'
        rw [Build.node_push]
        exact (Node.Sound.bare name fits).extend hext hg
  | rename id name =>
      refine hg.modify (fun _ => SameKind.refl _) fun hid => ?_
      have hn := hg.nodes id hid
      exact ⟨hn.kind, hn.targets, hn.values, hn.keyed, hn.distinct,
        hn.otherwise⟩
  | transform t kind =>
      exact hg.modify (fun _ => Or.inr ⟨_, _, kind, rfl⟩) fun hid =>
        (hg.nodes _ hid).transform kind _
  | code name kind =>
      refine ⟨fun id hid => (hg.nodes id hid).extend hext hg,
        fun span hspan => ?_⟩
      obtain ⟨hlt, hsig⟩ := hg.spans span hspan
      refine ⟨Nat.lt_of_lt_of_le hlt hext.codesSize, ?_⟩
      rw [← hsig]
      exact congrArg Code.signature (hext.codes _ hlt)
  | @span callback known signature =>
      refine ⟨fun id hid => (hg.nodes id hid).extend hext hg,
        fun span hspan => ?_⟩
      rcases Nat.lt_or_ge span g.spans.size with hlt | hge
      · rw [hext.callbacks span hlt]
        exact hg.spans span hlt
      · have hspan' : span = g.spans.size := by
          have : span < g.spans.size + 1 := by simpa using hspan
          omega
        subst hspan'
        have hcallback :
            ({ g with spans := g.spans.push callback } : Graph).spanCallback
            g.spans.size = callback := by
          simp [Graph.spanCallback]
        rw [hcallback]
        exact ⟨known, signature⟩
  | property type identifier free fresh =>
      exact ⟨fun id hid => (hg.nodes id hid).extend hext hg, hg.spans⟩
  | edge known fits target fresh =>
      exact hg.modify (fun _ => SameKind.refl _) fun hid =>
        (hg.nodes _ hid).addEdge known fits target fresh
  | otherwise known fits target fresh =>
      exact hg.modify (fun _ => SameKind.refl _) fun hid =>
        (hg.nodes _ hid).putOtherwise known fits target
  | cacheStart kind edge =>
      exact ⟨fun id hid => (hg.nodes id hid).extend hext hg, hg.spans⟩
  | cacheEnd kind edge =>
      exact ⟨fun id hid => (hg.nodes id hid).extend hext hg, hg.spans⟩

/-- The builder finds no fault with what it has built. -/
theorem Built.sound {g : Graph} (h : g.Built) : g.Sound :=
  h.induction
    ⟨fun _ hid => absurd hid (Nat.not_lt_zero _), fun _ hs =>
      absurd hs (Nat.not_lt_zero _)⟩
    fun _ _ => Sound.change

/-- Outside the graph there are no edges. -/
theorem node_of_ge {g : Graph} {id : NodeId} (hid : g.size ≤ id) :
    g.node id = default := by
  have hid' : ¬ id < g.nodes.size := Nat.not_lt.mpr hid
  simp [Graph.node, Array.getD, hid']

/-- Every edge of a sound graph leads to one of its nodes. -/
theorem Sound.target_lt {g : Graph} (hg : g.Sound) {id target : NodeId}
    (h : target ∈ (g.node id).targets) : target < g.size := by
  obtain ⟨e, he, rfl⟩ := List.mem_map.mp h
  rcases Nat.lt_or_ge id g.size with hlt | hge
  · exact (hg.nodes id hlt).targets e he
  · rw [node_of_ge hge] at he
    exact absurd he List.not_mem_nil

end Graph

end Bytewise

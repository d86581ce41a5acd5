/-
The edges of a parser, along those of its graph.

Every edge of a state either stays inside the trie of the node that the
state belongs to, or leads where an edge of that node does, with the value
of that edge (`Along`). So what the builder has checked of the edges of
the graph can be said of those of the machine. Forwarding changes none of
it: nodes that pass on carry no value and open nothing.
-/
import Bytewise.Proofs.Graph.OpenSpans
import Bytewise.Proofs.Parser.Image

namespace Bytewise

-- =============================================================== edges

/-- A part of the trie of a node goes on by an edge of the node. -/
private theorem Blueprint.Within.closing {bp : Blueprint}
    {n : NodeId} {t : Trie} (h : bp.Within n t) (hg : bp.graph.Sound)
    {edge : Edge}
    (hclosing : Layout.closing? (bp.graph.node n) t = some edge) :
    ∃ made ∈ (bp.graph.node n).allEdges, made.target = edge.target
        ∧ made.value = edge.value := by
  rcases Layout.closing_cases hclosing with ⟨other, hother, rfl⟩
    | ⟨bs, leaf, rfl, rfl⟩
  · have hmem : other ∈ (bp.graph.node n).allEdges :=
      Graph.mem_allEdges.mpr (Or.inr hother)
    obtain ⟨_, hnone, _⟩ :=
      (hg.nodes n (Graph.lt_of_mem_allEdges hmem)).otherwise other hother
    exact ⟨other, hmem, rfl, hnone⟩
  · obtain ⟨made, hmade, htarget, hvalue⟩ := h.fallback
    exact ⟨made, Graph.mem_allEdges.mpr (Or.inl hmade), htarget, hvalue⟩

namespace Layout

variable {l : Layout} {bp : Blueprint} {root n : NodeId}
  {state : Machine.State} {edge : Machine.Edge}

/-- An edge of a state that belongs to the node `n`: it stays inside the trie
of the node, or leads where an edge of the node does. -/
inductive Along (l : Layout) (bp : Blueprint) (n : NodeId)
    (state : Machine.State) (edge : Machine.Edge) : Prop where
  | inside {t : Trie} (role : l.roles[edge.target]? = some (.part n t)) : Along
      l bp n state edge
  | edge {e : Edge} (made : e ∈ (bp.graph.node n).allEdges)
      (value : edge.value = e.value)
      (passed : edge.value.isSome = true → state.kind.Dispatches)
      (lands : l.lands e.target edge.target) : Along l bp n state edge

/-- An edge into a trie. -/
private theorem Below.along {t : Trie} (h : l.Below n t edge.target)
    (hwithin : bp.Within n t) (hvalue : edge.value = Blueprint.leafValue t)
    (hkind : state.kind.Dispatches) :
    l.Along bp n state edge := by
  cases t with
  | leaf leaf =>
      obtain ⟨e, he, htarget, hsame⟩ := hwithin.leaf
      refine .edge (Graph.mem_allEdges.mpr (Or.inl he))
        (hvalue.trans hsame.symm) (fun _ => hkind) ?_
      rw [htarget]
      exact h
  | sequence literal child => exact .inside h
  | single bs fallback => exact .inside h

/-- The otherwise edge of a node. -/
private theorem IsOtherwise.along (hg : bp.graph.Sound) {e : Edge}
    (he : (bp.graph.node n).otherwise = some e) (h : l.IsOtherwise e edge) :
    l.Along bp n state edge := by
  have hmem : e ∈ (bp.graph.node n).allEdges :=
    Graph.mem_allEdges.mpr (Or.inr he)
  obtain ⟨_, hnone, _⟩ :=
    (hg.nodes n (Graph.lt_of_mem_allEdges hmem)).otherwise e he
  obtain ⟨_, hvalue, hlands⟩ := h
  refine .edge hmem (hvalue.trans hnone.symm) (fun hsome => ?_) hlands
  rw [hvalue] at hsome
  cases hsome

/-- A keyed edge of a node that calls. -/
private theorem IsCodeEdge.along (hg : bp.graph.Sound) {e : Edge}
    (he : e ∈ (bp.graph.node n).edges) (h : l.IsCodeEdge e edge) :
    l.Along bp n state edge := by
  have hmem : e ∈ (bp.graph.node n).allEdges :=
    Graph.mem_allEdges.mpr (Or.inl he)
  have hfits := (hg.nodes n (Graph.lt_of_mem_allEdges hmem)).keyed e he
  obtain ⟨⟨code, hcode, _⟩, _, hvalue, hlands⟩ := h
  have hnone : e.value = none := by
    cases hkind : (bp.graph.node n).kind with
    | dispatch t =>
        rw [hkind] at hfits
        obtain ⟨bs, hbs, _⟩ := hfits
        rw [hcode] at hbs
        cases hbs
    | invoke ref =>
        rw [hkind] at hfits
        exact hfits.2.2
    | _ =>
        rw [hkind] at hfits
        exact hfits.elim
  refine .edge hmem (hvalue.trans hnone.symm) (fun hsome => ?_) hlands
  rw [hvalue] at hsome
  cases hsome

/-- The edges of a part of a trie. -/
private theorem along_part (hg : bp.graph.Sound) {t : Trie}
    (hwithin : bp.Within n t) (hkeyed : l.Keyed n t state)
    (hclosed : l.Closed (bp.graph.node n) t state.otherwise)
    (hedge : edge ∈ state.allEdges) : l.Along bp n state edge := by
  have hkind := hkeyed.dispatches
  rcases List.mem_append.mp hedge with hedge | hother
  · cases t with
    | leaf leaf => exact hkeyed.elim
    | sequence literal child =>
        obtain ⟨_, e, hedges, _, _, hvalue, hbelow⟩ := hkeyed
        rw [hedges] at hedge
        obtain rfl := List.mem_singleton.mp hedge
        exact hbelow.along hwithin.sequence hvalue hkind
    | single bs fallback =>
        obtain ⟨b, htakes⟩ := hkeyed.2.used edge hedge
        obtain ⟨x, hx, _, _, hvalue, hbelow⟩ :=
          hkeyed.2.branch edge hedge b htakes
        exact hbelow.along (hwithin.branch hx) hvalue hkind
  · have hother : state.otherwise = some edge := Option.mem_toList.mp hother
    obtain ⟨e, e', hclosing, he', _, hvalue, hlands⟩ := closed_iff.mp hclosed
    obtain rfl := Option.some.inj (he'.symm.trans hother)
    obtain ⟨made, hmade, htarget, hsame⟩ := hwithin.closing hg hclosing
    refine .edge hmade (hvalue.trans hsame.symm) (fun _ => hkind) ?_
    rw [htarget]
    exact hlands

/-- Every edge of a state leads along its node. -/
theorem Realizes.along (hg : bp.graph.Sound) {role : Role}
    (h : l.Realizes bp role state) (hrole : bp.Allows root role)
    (hedge : edge ∈ state.allEdges) :
    l.Along bp role.node state edge := by
  cases h with
  | @whole n _ kind edges otherwise ends =>
      rcases List.mem_append.mp hedge with hedge | hother
      · obtain ⟨e, he, hcode⟩ := edges.made edge hedge
        exact hcode.along hg he
      · have hother : state.otherwise = some edge :=
          Option.mem_toList.mp hother
        cases hnode : (bp.graph.node n).otherwise with
        | none =>
            rw [(ends hnode).1] at hother
            cases hother
        | some e =>
            obtain ⟨e', he', h⟩ := otherwise e hnode
            obtain rfl := Option.some.inj (he'.symm.trans hother)
            exact h.along hg hnode
  | @part n t _ transform keyed closed =>
      exact along_part hg (hrole.part n t rfl).2 keyed closed hedge

end Layout

-- ============================================================== values

namespace Graph

variable {g : Graph} {root n k : NodeId}

/-- An edge that the builder lets into a node that takes a value has one. -/
theorem value_of_targetFault {ref : CodeRef} {value : Option Int64}
    (h : Build.targetFault? g (.invoke ref) value = none)
    (hvalue : (g.code ref).signature = .value) : value.isSome = true := by
  cases value with
  | some v => rfl
  | none =>
      unfold Build.targetFault? at h
      dsimp only at h
      rw [hvalue] at h
      cases h

/-- A node that passes on does not pass on to one that takes a value. -/
theorem PassesTo.takes_none (hg : g.Sound) (h : g.PassesTo n k) {ref : CodeRef}
    (hkind : (g.node k).kind = .invoke ref) :
    (g.code ref).signature ≠ .value := by
  obtain ⟨t, e, _, _, hother, _, rfl⟩ := h
  have hmem : e ∈ (g.node n).allEdges := mem_allEdges.mpr (Or.inr hother)
  have hsound := hg.nodes n (lt_of_mem_allEdges hmem)
  have hfault := hsound.values e hmem
  rw [hkind, (hsound.otherwise e hother).2.1] at hfault
  intro hvalue
  cases value_of_targetFault hfault hvalue

/-- Passing on leaves the spans open that are. -/
theorem Forwards.arrives (h : g.Forwards n k) {before : Set SpanId}
    (hn : g.Arrives root n before) : g.Arrives root k before := by
  induction h with
  | refl => exact hn
  | @tail j k _ hpasses ih =>
      obtain ⟨t, e, hkind, _, hother, _, rfl⟩ := hpasses
      have hsame : g.openAfter j before = before := by
        unfold openAfter
        rw [hkind]
      have hstep := ih.step (leads_of_edge (mem_allEdges.mpr (Or.inr hother)))
      rwa [hsame] at hstep

end Graph

namespace Parser

variable {parser : Parser} {bp : Blueprint} {root n : NodeId}
  {entry : NodeId → Option StateId} {l : Layout} {s : StateId}

/-- A state that has edges has a role. -/
theorem Image.role_of_lt (h : parser.Image bp root entry l)
    (hs : s < parser.machine.size) :
    ∃ role, l.roles[s]? = some role ∧ bp.Allows root role
      ∧ l.Realizes bp role (parser.machine.state s) := by
  have hlt : s < l.roles.length := h.size.symm ▸ hs
  have hrole : l.roles[s]? = some l.roles[s] := List.getElem?_eq_getElem hlt
  exact ⟨_, hrole, h.allowed _ (List.getElem_mem hlt), h.realizes s _ hrole⟩

/-- Where an edge to a node lands, a node stands that the node forwards to. -/
theorem Image.landed (h : parser.Image bp root entry l) (hs : l.lands n s) :
    ∃ role, l.roles[s]? = some role ∧ bp.graph.Forwards n role.node := by
  obtain ⟨k, hforwards, hk⟩ := (h.lands n s).mp hs
  obtain ⟨role, hrole, henters⟩ := h.entered k s hk
  cases henters with
  | whole => exact ⟨_, hrole, hforwards⟩
  | part => exact ⟨_, hrole, hforwards⟩

/-- The state entered for a node that reads no bytes does what the node
becomes. -/
theorem Image.kindFits_of_entry (h : parser.Image bp root entry l)
    (hs : entry n = some s)
    (hplain : ∀ t, (bp.graph.node n).kind ≠ .dispatch t) :
    l.KindFits bp (bp.graph.node n) (parser.machine.state s).kind := by
  obtain ⟨role, hrole, henters⟩ := h.entered n s hs
  have hrealizes := h.realizes s role hrole
  cases henters with
  | whole _ =>
      cases hrealizes with
      | whole kind _ _ _ => exact kind
  | part _ =>
      cases hrealizes with
      | part transform _ _ => exact absurd transform (hplain _)

/-- Only states of nodes that call are states that call. -/
theorem Image.invoked (h : parser.Image bp root entry l) {role : Role}
    (hrole : l.roles[s]? = some role) {callee : CodeId}
    (hkind : (parser.machine.state s).kind = .invoke callee) :
    ∃ ref, (bp.graph.node role.node).kind = .invoke ref
      ∧ l.machine.Compiles (bp.graph.code ref) callee := by
  have hfits := (h.realizes s role hrole).kindFits (by rw [hkind]; exact id)
  rw [hkind] at hfits
  exact hfits

/-- An edge to a node lands where a value is taken only if the node takes
one. -/
theorem Image.takesValue (h : parser.Image bp root entry l)
    (hg : bp.graph.Sound) (hs : l.lands n s)
    (htakes : parser.machine.TakesValue s) :
    ∃ ref, (bp.graph.node n).kind = .invoke ref ∧ (bp.graph.code ref).signature
        = .value := by
  obtain ⟨callee, hkind, hvalue⟩ := htakes
  obtain ⟨role, hrole, hforwards⟩ := h.landed hs
  obtain ⟨ref, hnode, hcompiles⟩ := h.invoked hrole hkind
  have hsignature : (bp.graph.code ref).signature = .value := by
    rw [← hvalue]
    show (bp.graph.code ref).kind.signature
      = (parser.machine.code callee).kind.signature
    rw [← h.machine, hcompiles.kind]
  rcases hforwards.cases_tail with heq | ⟨j, _, hpasses⟩
  · rw [heq] at hnode
    exact ⟨ref, hnode, hsignature⟩
  · exact absurd hsignature (hpasses.takes_none hg hnode)

end Parser

end Bytewise

/-
The law of built graphs.

`Lawful` gathers what later passes take for granted of a graph: which
edges a node of each kind has, what they bring to their targets, how the
properties are called and what the caches of span nodes answer. The
builder checks most of it edge by edge, which is soundness; a cache is
right because an otherwise edge, once set, stays as it is.
-/
import Bytewise.Proofs.Graph.Properties
import Bytewise.Proofs.Graph.Sound

namespace Bytewise

namespace Graph

/-- The node calls a code that takes a value. -/
def TakesValue (g : Graph) (id : NodeId) : Prop :=
  ∃ ref, (g.node id).kind = .invoke ref ∧ (g.code ref).signature = .value

/-- A node of `kind` that leads on to `next` and leaves the input as it is. -/
structure Serves (g : Graph) (kind : NodeKind) (next id : NodeId) : Prop where
  known : id < g.size
  kind : (g.node id).kind = kind
  leads : (g.node id).otherwise = some ⟨none, next, true, none⟩

end Graph

/-- A node with the edges that its kind allows and the values that their
targets ask for. -/
structure Node.Lawful (g : Graph) (node : Node) : Prop where
  /-- A match node has a non-empty string of bytes on every keyed edge. An edge
  that leaves the input as it is looks at one byte and brings no value. -/
  bytes : ∀ t, node.kind = .dispatch t → ∀ e ∈ node.edges, ∃ bs,
    e.key = some (.bytes bs)
    ∧ bs ≠ [] ∧ (e.noAdvance = true → bs.length = 1 ∧ e.value = none)
  /-- A node that calls has a return code on every keyed edge, which does
  nothing else. -/
  returns : ∀ ref, node.kind = .invoke ref → ∀ e ∈ node.edges,
    (∃ code, e.key = some (.code code))
    ∧ e.noAdvance = true ∧ e.value = none
  /-- What is called is a code of the graph, and none that gets the bytes of
  spans. -/
  callee : ∀ ref, node.kind = .invoke ref → ref < g.codes.size
    ∧ (g.code ref).signature ≠ .span
  distinct : (node.edges.map (·.key)).Nodup
  keyed : node.edges ≠ [] →
    (∃ t, node.kind = .dispatch t) ∨ ∃ ref, node.kind = .invoke ref
  final : ∀ code reason, node.kind = .error code reason → node.allEdges = []
  otherwise : ∀ e, node.otherwise = some e → e.key = none ∧ e.value = none
  /-- What pauses, calls or skips has done all of its reading. -/
  stays : ∀ e, node.otherwise = some e →
    (∃ code reason, node.kind = .pause code reason)
    ∨ (∃ ref, node.kind = .invoke ref)
    ∨ (∃ field, node.kind = .consume field) →
    e.noAdvance = true
  values : ∀ e ∈ node.allEdges, e.value.isSome = true ↔ g.TakesValue e.target

namespace Graph

/-- The caches hold nodes of the spans and targets that they are asked for. -/
structure Caches (g : Graph) : Prop where
  starts : ∀ span next id, ((span, next), id) ∈ g.spanStarts →
    g.Serves (.spanStart span) next id
  ends : ∀ span next id, ((span, next), id) ∈ g.spanEnds →
    g.Serves (.spanEnd span) next id

/-- Every node is as its kind asks, the properties are told apart, and the
caches are right. -/
structure Lawful (g : Graph) : Prop where
  nodes : ∀ id, id < g.size → (g.node id).Lawful g
  properties : g.PropertiesNamed
  caches : g.Caches

-- ============================================================== nodes

/-- An edge with which its target finds no fault brings a value where one is
taken, and only there. -/
theorem isSome_iff_takesValue {g : Graph} {id : NodeId} {value : Option Int64}
    (h : Build.targetFault? g (g.node id).kind value = none) :
    value.isSome = true ↔ g.TakesValue id := by
  unfold Build.targetFault? at h
  cases hkind : (g.node id).kind with
  | invoke ref =>
      rw [hkind] at h
      cases hsignature : (g.code ref).signature with
      | plain =>
          have hnone : ¬ g.TakesValue id := by
            rintro ⟨ref', hkind', hvalue⟩
            cases hkind.symm.trans hkind'
            exact nomatch hsignature.symm.trans hvalue
          cases value with
          | none => exact iff_of_false Bool.false_ne_true hnone
          | some v => simp [hsignature] at h
      | value =>
          cases value with
          | none => simp [hsignature] at h
          | some v => exact iff_of_true rfl ⟨ref, hkind, hsignature⟩
      | span => cases value <;> simp [hsignature] at h
  | _ =>
      rw [hkind] at h
      refine iff_of_false (fun hsome => ?_) ?_
      · simp [hsome] at h
      · rintro ⟨ref, hkind', -⟩
        exact nomatch hkind.symm.trans hkind'

/-- Only match nodes and nodes that call have keyed edges. -/
theorem EdgeFits.kind {edge : Edge} {kind : NodeKind}
    (h : EdgeFits edge kind) :
    (∃ t, kind = .dispatch t) ∨ ∃ ref, kind = .invoke ref := by
  cases kind with
  | dispatch t => exact Or.inl ⟨t, rfl⟩
  | invoke ref => exact Or.inr ⟨ref, rfl⟩
  | _ => exact h.elim

end Graph

/-- A node with which the builder finds no fault is lawful. -/
theorem Node.lawful_of_sound {g : Graph} {node : Node} (h : node.Sound g) :
    node.Lawful g where
  bytes t hkind e he := by
    have hfits := h.keyed e he
    rw [hkind] at hfits
    exact hfits
  returns ref hkind e he := by
    have hfits := h.keyed e he
    rw [hkind] at hfits
    exact hfits
  callee ref hkind := by
    have hfits := h.kind
    rw [hkind] at hfits
    exact hfits
  distinct := List.pairwise_map.mpr h.distinct
  keyed hedges := by
    obtain ⟨e, he⟩ := List.exists_mem_of_ne_nil _ hedges
    exact (h.keyed e he).kind
  final code reason hkind := by
    have hedges : node.edges = [] :=
      List.eq_nil_iff_forall_not_mem.mpr fun e he => by
      have hfits := h.keyed e he
      rw [hkind] at hfits
      exact hfits
    have hnone : node.otherwise = none :=
      Option.eq_none_iff_forall_not_mem.mpr fun e he => by
      have hfits := h.otherwise e he
      rw [hkind] at hfits
      exact hfits.2.2
    rw [Node.allEdges, hedges, hnone]
    rfl
  otherwise e he := ⟨(h.otherwise e he).1, (h.otherwise e he).2.1⟩
  stays e he hkind := by
    obtain ⟨-, -, hstays⟩ := h.otherwise e he
    rcases hkind with ⟨code, reason, hkind⟩ | ⟨ref, hkind⟩ | ⟨field, hkind⟩
    all_goals
      rw [hkind] at hstays
      exact hstays
  values e he := Graph.isSome_iff_takesValue (h.values e he)

namespace Graph

variable {g g' : Graph} {kind : NodeKind} {next id : NodeId}

-- ============================================================= caches

/-- An otherwise edge stays as it was set. -/
theorem Change.otherwise_eq (h : Change g g') (hid : id < g.size) {edge : Edge}
    (hedge : (g.node id).otherwise = some edge) :
    (g'.node id).otherwise = some edge := by
  cases h with
  | node name fits => rw [node_push_of_lt hid, hedge]
  | rename i name =>
      rw [node_modify hid]
      split
      · exact hedge
      · exact hedge
  | transform t kind =>
      rw [node_modify hid]
      split
      · exact hedge
      · exact hedge
  | edge known fits target fresh =>
      rw [addEdge, node_modify hid]
      split
      · exact hedge
      · exact hedge
  | otherwise known fits target fresh =>
      rw [putOtherwise, node_modify hid]
      split
      · rename_i heq
        -- a second otherwise edge is refused
        subst heq
        rw [hedge] at fresh
        cases fresh
      · exact hedge
  | _ => exact hedge

/-- A node that serves a span goes on to serve it. -/
theorem Serves.change (h : Change g g') (hspan : ∀ t, kind ≠ .dispatch t)
    (hserves : g.Serves kind next id) : g'.Serves kind next id where
  known := Nat.lt_of_lt_of_le hserves.known h.size_le
  kind := by
    rcases h.extends.kinds id hserves.known with hsame | ⟨t, _, hdispatch, _⟩
    · rw [← hsame, hserves.kind]
    · exact absurd (hserves.kind.symm.trans hdispatch) (hspan t)
  leads := h.otherwise_eq hserves.known hserves.leads

/-- A node that is not a match node is one of the graph's. -/
theorem lt_of_kind (hkind : (g.node id).kind = kind)
    (hspan : ∀ t, kind ≠ .dispatch t) :
    id < g.size := by
  refine Nat.lt_of_not_le fun hge => hspan none ?_
  rw [← hkind, node_of_ge hge]
  rfl

/-- What was cached goes on to serve, whatever else a change does. -/
theorem Caches.keep (h : Change g g') (hg : g.Caches) :
    (∀ span next id, ((span, next), id) ∈ g.spanStarts →
      g'.Serves (.spanStart span) next id)
      ∧ ∀ span next id, ((span, next), id) ∈ g.spanEnds →
          g'.Serves (.spanEnd span) next id :=
  ⟨fun span next id hmem => (hg.starts span next id hmem).change h
    fun _ => nofun,
    fun span next id hmem => (hg.ends span next id hmem).change h
      fun _ => nofun⟩

theorem Caches.change (h : Change g g') (hg : g.Caches) : g'.Caches := by
  obtain ⟨starts, ends⟩ := hg.keep h
  cases h with
  | cacheStart kind edge =>
      refine ⟨fun span next id hmem => ?_, ends⟩
      rcases List.mem_cons.mp hmem with heq | hmem
      · cases heq
        exact ⟨lt_of_kind (g := g) kind fun _ => nofun, kind, edge⟩
      · exact starts span next id hmem
  | cacheEnd kind edge =>
      refine ⟨starts, fun span next id hmem => ?_⟩
      rcases List.mem_cons.mp hmem with heq | hmem
      · cases heq
        exact ⟨lt_of_kind (g := g) kind fun _ => nofun, kind, edge⟩
      · exact ends span next id hmem
  | _ => exact ⟨starts, ends⟩

theorem Built.caches (h : g.Built) : g.Caches :=
  h.induction ⟨fun _ _ _ hmem => (nomatch hmem), fun _ _ _ hmem =>
    (nomatch hmem)⟩
    fun _ _ => Caches.change

-- ============================================================ the law

/-- Whatever is called on the builder, and whichever calls fail, the graph is
lawful. -/
theorem Built.lawful (h : g.Built) : g.Lawful where
  nodes id hid := Node.lawful_of_sound (h.sound.nodes id hid)
  properties := h.propertiesNamed
  caches := h.caches

/-- A span over a part of the input, made with calls of which five fail: the
second key of a list, a value for a match node, an edge of an error, a name
that the state has, and a span node before a code that takes a value, which is
left without an edge. -/
def faults : Graph :=
  Build.replay [.externalCode "on_url" .span, .span 0, .node "url",
    .intrinsic (.store "method"),
    .invoke 1, .error 1 "bad", .spanStart 0 (some 0), .spanStart 0 (some 0),
    .matchAny 0 [[0x61], [0x61], [0x62]] 0, .select 0 [0x63] 1 0,
      .select 0 [0x64] 1 1,
    .otherwise 2 0, .property .i8 "method", .property .i8 "error",
      .spanEnd 0 (some 1)] {}

/-- The calls that fail leave a lawful graph, with all that was done before. -/
theorem lawful_faults : faults.Lawful ∧ faults.size = 5
    ∧ faults.spanStarts = [((0, 0), 3)]
    ∧ faults.spanEnds = [] ∧ (faults.node 0).edges.length = 2 :=
  ⟨Built.lawful (Built.new.replay (by decide +kernel)), by decide +kernel, by
    decide +kernel,
    by decide +kernel, by decide +kernel⟩

end Graph

end Bytewise

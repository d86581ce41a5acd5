/-
What code is generated from.

A parser is `WellFormed` if its live states are in the shape that their
kind asks for. Most of it is known of the assembly: what a state stands for
(`Image`), and which keys and names the states have (`Assembly.Formed`),
neither of which the removal of forwarding states changes. That an empty
state consumes is known only after it, and only since the loop check left
no way around without reading: an empty state that did not would be one
that edges are redirected past.
-/
import Bytewise.Proofs.Graph.Progress
import Bytewise.Proofs.Machine.Skipping
import Bytewise.Proofs.Parser.Acceptance

namespace Bytewise

-- =============================================================== states

/-- A state that code can be generated from. -/
structure Parser.Shaped (parser : Parser) (s : StateId) : Prop where
  inside : s < parser.machine.size
  targets : ∀ edge ∈ (parser.machine.state s).allEdges,
    edge.target < parser.machine.size
  /-- Errors are final, and nothing else is. -/
  final : (parser.machine.state s).otherwise = none
    ↔ ∃ code reason, (parser.machine.state s).kind = .error code reason
  /-- A table has at most 255 edges. -/
  keys : (parser.machine.state s).kind.KeysFit 256
    ((parser.machine.state s).edges.map (·.key))
  consumes : (parser.machine.state s).kind = .empty →
    ∀ edge, (parser.machine.state s).otherwise = some edge →
      edge.noAdvance = false
  slots : ∀ slot callback, (parser.machine.state s).kind
      = .spanStart slot callback
      ∨ (parser.machine.state s).kind = .spanEnd slot callback →
    ∃ hslot : slot < parser.slots.length, callback ∈ parser.slots[slot]

/-- A parser whose live states are in shape and have names of their own. -/
structure Parser.WellFormed (parser : Parser) : Prop where
  states : ∀ s ∈ parser.liveStates, parser.Shaped s
  names : ∀ s ∈ parser.liveStates, ∀ t ∈ parser.liveStates,
    (parser.machine.state s).name = (parser.machine.state t).name → s = t

-- ================================================================= keys

namespace Machine

theorem StateKind.KeysFit.mono {limit limit' : Nat} (hle : limit ≤ limit')
    {kind : StateKind} {keys : List (Option Key)}
    (h : kind.KeysFit limit keys) :
    kind.KeysFit limit' keys := by
  cases kind with
  | table =>
      obtain ⟨groups, hkeys, hfew, hgroups⟩ := h
      exact ⟨groups, hkeys, Nat.lt_of_lt_of_le hfew hle, hgroups⟩
  | _ => exact h

/-- No keys fit every kind but a sequence. -/
theorem StateKind.keysFit_nil {limit : Nat} (hlimit : 0 < limit)
    {kind : StateKind} (hkind : kind ≠ .sequence) : kind.KeysFit limit [] := by
  cases kind with
  | sequence => exact absurd rfl hkind
  | single => exact ⟨[], rfl, .nil⟩
  | table =>
      exact ⟨[], rfl, hlimit, fun _ hgroup => absurd hgroup List.not_mem_nil,
        .nil⟩
  | invoke callee => exact ⟨[], rfl, .nil⟩
  | _ => rfl

/-- The machines differ in the targets of edges at most. -/
structure Retargeted (m m' : Machine) : Prop where
  size : m'.size = m.size
  kinds : ∀ s, (m'.state s).kind = (m.state s).kind
  names : ∀ s, (m'.state s).name = (m.state s).name
  keys : ∀ s, (m'.state s).edges.map (·.key) = (m.state s).edges.map (·.key)

theorem Retargeted.refl (m : Machine) : Retargeted m m :=
  ⟨rfl, fun _ => rfl, fun _ => rfl, fun _ => rfl⟩

theorem keeps_retargeted (m : Machine) : Keeps (Retargeted m) := by
  intro m' id index edge next h hedge _
  have hid : id < m'.size := lt_of_mem_allEdges (List.mem_of_getElem? hedge)
  have hstate : ∀ s, ((m'.retarget id index next).state s).kind
      = (m'.state s).kind
      ∧ ((m'.retarget id index next).state s).name = (m'.state s).name
      ∧ ((m'.retarget id index next).state s).edges.map (·.key)
        = (m'.state s).edges.map (·.key) := by
    intro s
    rw [state_retarget hid]
    split
    · rename_i hsame
      subst hsame
      unfold State.retarget
      split
      · refine ⟨rfl, rfl, List.ext_getElem? fun j => ?_⟩
        rw [List.getElem?_map, List.getElem?_map, List.getElem?_modify]
        cases (m'.state id).edges[j]? with
        | none => rfl
        | some e => by_cases hj : index = j <;> simp [hj]
      · exact ⟨rfl, rfl, rfl⟩
    · exact ⟨rfl, rfl, rfl⟩
  exact ⟨(size_modify m' id _).trans h.size, fun s =>
    (hstate s).1.trans (h.kinds s),
    fun s => (hstate s).2.1.trans (h.names s),
      fun s => (hstate s).2.2.trans (h.keys s)⟩

end Machine

theorem Options.maxTableTargets_le {options : Options}
    (h : options.validate = .ok ()) :
    options.maxTableTargets ≤ 256 := by
  have hnone : options.fault? = none := by
    unfold Options.validate at h
    split at h
    · cases h
    · assumption
  have hwidth : options.tableElemWidth ≤ 8 := by
    unfold Options.fault? at hnone
    split at hnone
    · cases hnone
    · rename_i hfit
      refine Nat.not_lt.mp fun hwide => hfit ?_
      exact Bool.or_eq_true_iff.mpr (Or.inr (decide_eq_true hwide))
  unfold Options.maxTableTargets
  rw [Nat.one_shiftLeft]
  exact Nat.pow_le_pow_right (by decide) hwidth

-- ======================================================== empty states

namespace Graph

variable {g : Graph} {root n k : NodeId}

/-- Every byte passes a node that passes on. -/
theorem PassesTo.passes (hg : g.Sound) (h : g.PassesTo n k) (c : UInt8) :
    g.Passes c n k := by
  obtain ⟨t, edge, _, hedges, hother, hstays, rfl⟩ := h
  have hfree : ¬ ∃ e ∈ (g.node n).edges, e.noAdvance = false
      ∧ e.firstByte? = some c := by
    simp [hedges]
  refine ⟨Bool.eq_false_iff.mpr
    (mt ((g.node n).contains_consumedBytes c).mp hfree), edge,
    mem_allEdges.mpr (Or.inr hother), hstays, rfl, ?_⟩
  simp [hg.otherwise_key hother]

/-- Nodes that pass on do not lead around, where loops are checked. -/
theorem not_passesTo_around (hg : g.Sound) (hok : g.checkLoops root = .ok ())
    (hroot : root < g.size) (hreach : g.Reaches root n) :
    ¬ Relation.TransGen g.PassesTo n n := by
  intro hround
  have hchecked := ok_of_forM hok (hg.mem_reachable.mpr hreach)
  exact not_passes_around hg (hg.reaches_lt hroot hreach) hchecked 0
    (Relation.TransGen.mono (fun _ _ hpasses => PassesTo.passes hg hpasses 0) _
      _ hround)

end Graph

namespace Assembly

variable {bp : Blueprint} {root : NodeId} {a : Assembly} {roles : List Role}

/-- States that pass on stand for nodes that do. -/
theorem Tracks.passesTo (h : Tracks bp root (fun _ => False) a roles)
    {s t : StateId} (hpath : Relation.TransGen a.machine.Passes s t) :
    ∃ n k, roles[s]? = some (.whole n)
      ∧ Relation.TransGen bp.graph.PassesTo n k
      ∧ a.stateOf? k = some t := by
  have hone : ∀ {x y : StateId}, a.machine.Passes x y →
      ∃ n k, roles[x]? = some (.whole n) ∧ bp.graph.PassesTo n k
          ∧ a.stateOf? k = some y := by
    intro x y hpasses
    have hlt : x < roles.length := h.size ▸ hpasses.lt
    have hrole : roles[x]? = some roles[x] := List.getElem?_eq_getElem hlt
    obtain ⟨n, k, hwhole, hnext, hk⟩ :=
      passesTo_of_passes (h.settled x _ hrole not_false) hpasses
    exact ⟨n, k, hwhole ▸ hrole, hnext, hk⟩
  induction hpath with
  | single hpasses =>
      obtain ⟨n, k, hrole, hnext, hk⟩ := hone hpasses
      exact ⟨n, k, hrole, .single hnext, hk⟩
  | tail _ hpasses ih =>
      obtain ⟨n, k, hrole, hnodes, hk⟩ := ih
      obtain ⟨n', k', hrole', hnext, hk'⟩ := hone hpasses
      obtain ⟨role, hentered, henters⟩ := h.entered k _ hk
      obtain rfl := Option.some.inj (hentered.symm.trans hrole')
      cases henters with
      | whole => exact ⟨n, k', hrole, hnodes.tail hnext, hk'⟩

/-- No state of a checked graph passes on around to itself. -/
theorem Tracks.not_passes_around (h : Tracks bp root (fun _ => False) a roles)
    (hg : bp.graph.Sound) (hloops : bp.graph.checkLoops root = .ok ())
    (hroot : root < bp.graph.size) (s : StateId) :
    ¬ Relation.TransGen a.machine.Passes s s := by
  intro hround
  obtain ⟨n, k, hrole, hnodes, hk⟩ := h.passesTo hround
  obtain ⟨role, hentered, henters⟩ := h.entered k s hk
  obtain rfl := Option.some.inj (hentered.symm.trans hrole)
  cases henters with
  | whole =>
      exact Graph.not_passesTo_around hg hloops hroot
        (h.allowed _ (List.mem_of_getElem? hrole)).reached hnodes

end Assembly

-- ============================================================== parsers

namespace Layout

variable {l : Layout} {bp : Blueprint} {node : Node} {kind : Machine.StateKind}
  {role : Role} {state : Machine.State}

theorem KindFits.error (h : l.KindFits bp node kind) {code : Int32}
    {reason : String}
    (hnode : node.kind = .error code reason) : kind = .error code reason := by
  cases kind <;> simp_all [KindFits]

/-- A sequence has its literal. -/
theorem Realizes.sequence (h : l.Realizes bp role state)
    (hkind : state.kind = .sequence) :
    state.edges ≠ [] := by
  cases h with
  | whole kind edges otherwise ends =>
      rw [hkind] at kind
      exact kind.elim
  | @part n t _ transform keyed closed =>
      cases t with
      | leaf leaf => exact keyed.elim
      | sequence literal child =>
          obtain ⟨_, edge, hedges, _⟩ := keyed
          rw [hedges]
          exact List.cons_ne_nil edge []
      | single bs fallback =>
          obtain ⟨hsingle | htable, _⟩ := keyed
          · exact nomatch hkind.symm.trans hsingle
          · exact nomatch hkind.symm.trans htable

/-- The otherwise edge of an empty state has no value. -/
theorem Realizes.empty (h : l.Realizes bp role state)
    (hkind : state.kind = .empty) {edge : Machine.Edge}
    (hedge : state.otherwise = some edge) :
    edge.value = none := by
  cases h with
  | @whole n _ kind edges otherwise ends =>
      cases hother : (bp.graph.node n).otherwise with
      | none =>
          rw [(ends hother).1] at hedge
          cases hedge
      | some e =>
          obtain ⟨e', he', _, hvalue, _⟩ := otherwise e hother
          obtain rfl := Option.some.inj (he'.symm.trans hedge)
          exact hvalue
  | part transform keyed closed =>
      have hdispatches := keyed.dispatches
      rw [hkind] at hdispatches
      exact hdispatches.elim

end Layout

namespace Parser

variable {parser : Parser} {g : Graph} {root : NodeId} {symbolPrefix : String}
  {options : Options} {bp : Blueprint} {entry : NodeId → Option StateId}
  {l : Layout} {s : StateId}

/-- A state that an edge to a node leads to is there. -/
theorem Image.lt_of_lands (h : parser.Image bp root entry l) {n : NodeId}
    (hs : l.lands n s) :
    s < parser.machine.size := by
  obtain ⟨role, hrole, _⟩ := h.landed hs
  exact h.size ▸ (List.getElem?_eq_some_iff.mp hrole).1

/-- Edges lead to states that are there. -/
theorem Image.inside (h : parser.Image bp root entry l) (hg : bp.graph.Sound)
    {edge : Machine.Edge} (hedge : edge ∈ (parser.machine.state s).allEdges) :
    edge.target < parser.machine.size := by
  obtain ⟨role, _, hallowed, hrealizes⟩ :=
    h.role_of_lt (Machine.lt_of_mem_allEdges hedge)
  cases hrealizes.along hg hallowed hedge with
  | inside hpart => exact h.size ▸ (List.getElem?_eq_some_iff.mp hpart).1
  | edge _ _ _ lands => exact h.lt_of_lands lands

/-- Errors have no otherwise edge, and all other states have one. -/
theorem Image.final (h : parser.Image bp root entry l) (hg : bp.graph.Sound)
    (hs : s < parser.machine.size) : (parser.machine.state s).otherwise = none
      ↔ ∃ code reason, (parser.machine.state s).kind = .error code reason := by
  obtain ⟨role, _, hallowed, hrealizes⟩ := h.role_of_lt hs
  generalize parser.machine.state s = state at hrealizes
  cases hrealizes with
  | @whole n _ kind edges otherwise ends =>
      cases hother : (bp.graph.node n).otherwise with
      | none =>
          obtain ⟨hnone, code, reason, herror⟩ := ends hother
          exact iff_of_true hnone ⟨code, reason, kind.error herror⟩
      | some e =>
          obtain ⟨e', he', _⟩ := otherwise e hother
          refine iff_of_false (he' ▸ Option.some_ne_none e')
            fun ⟨code, reason, herror⟩ => ?_
          rw [herror] at kind
          have hn :=
            Graph.lt_of_mem_allEdges (Graph.mem_allEdges.mpr (Or.inr hother))
          obtain ⟨_, _, hfits⟩ := (hg.nodes n hn).otherwise e hother
          have hkind : (bp.graph.node n).kind = .error code reason := kind
          rw [hkind] at hfits
          exact hfits
  | part transform keyed closed =>
      obtain ⟨_, e', _, he', _⟩ := Layout.closed_iff.mp closed
      refine iff_of_false (he' ▸ Option.some_ne_none e')
        fun ⟨code, reason, herror⟩ => ?_
      have hdispatches := keyed.dispatches
      rw [herror] at hdispatches
      exact hdispatches

/-- Keys that a state of the assembly may have, the state of the parser has. -/
theorem Image.keysFit (h : parser.Image bp root entry l)
    (hs : s < parser.machine.size) {done : Machine}
    (hmoved : done.Retargeted parser.machine) {limit : Nat} (hpos : 0 < limit)
    (hkeys : (done.state s).edges = []
      ∨ (done.state s).kind.KeysFit limit ((done.state s).edges.map (·.key))) :
    (parser.machine.state s).kind.KeysFit limit
      ((parser.machine.state s).edges.map (·.key)) := by
  rw [← hmoved.kinds s, ← hmoved.keys s] at hkeys
  rcases hkeys with hnil | hfit
  · have hnone : (parser.machine.state s).edges = [] := by
      rw [← List.map_eq_nil_iff, hmoved.keys s, hnil]
      rfl
    obtain ⟨role, _, _, hrealizes⟩ := h.role_of_lt hs
    rw [hnone]
    exact Machine.StateKind.keysFit_nil hpos fun hkind =>
      hrealizes.sequence hkind hnone
  · exact hfit

/-- The slot of a state that opens or closes a span lists its callback. -/
theorem Image.slotted (h : parser.Image bp root entry l)
    (hslots : bp.graph.SlotsAllocated root bp.spans)
    (hs : s < parser.machine.size) {slot : SlotId} {callback : CodeId}
    (hkind : (parser.machine.state s).kind = .spanStart slot callback
      ∨ (parser.machine.state s).kind = .spanEnd slot callback) :
    ∃ hslot : slot < parser.slots.length, callback ∈ parser.slots[slot] := by
  obtain ⟨role, _, _, hrealizes⟩ := h.role_of_lt hs
  rcases hkind with hkind | hkind
  · obtain ⟨span, _, hslot, hcode⟩ := hrealizes.spanStart hkind
    exact h.listedSlot hslots hslot hcode
  · obtain ⟨span, _, hslot, hcode, _⟩ := hrealizes.spanEnd hkind
    exact h.listedSlot hslots hslot hcode

/-- The live states are states of the machine. -/
theorem lt_of_live (hroot : parser.root < parser.machine.size)
    (hs : s ∈ parser.liveStates) :
    s < parser.machine.size := by
  rcases List.mem_cons.mp hs with rfl | hs
  · exact hroot
  · obtain ⟨_, _, hedge⟩ :=
      Relation.TransGen.tail'_iff.mp (Exploration.mem_afterRoot.mp hs)
    exact hedge.2

/-- The parser of a graph is well formed. -/
theorem wellFormed_of_ofGraph (hg : g.Sound)
    (hok : ofGraph g root symbolPrefix options = .ok parser) :
    parser.WellFormed := by
  obtain ⟨hoptions, hloops, _, hacc⟩ := accepted_of_ofGraph hg hok
  obtain ⟨spans, l, hspans, himage, hroot, hlands, _⟩ :=
    image_of_ofGraph hg hok
  obtain ⟨slots, r, done, hdone, hmachine, hentry, _⟩ :=
    assembled_of_ofGraph hok
  obtain ⟨spans', roles, hspans', htracks, _⟩ :=
    Assembly.assembled_tracks hg hdone
  obtain rfl := Except.ok.inj (hspans.symm.trans hspans')
  have hformed : Assembly.Formed ⟨g, options, spans⟩ root done := by
    obtain ⟨_, _, hdone', hformed⟩ :=
      assembled_of_accepted hg hoptions hloops hspans hacc
    obtain ⟨_, rfl⟩ := Prod.mk.inj (Except.ok.inj (hdone'.symm.trans hdone))
    exact hformed
  have hmoved : done.machine.Retargeted parser.machine := by
    rw [hmachine]
    exact Machine.skipForwarding_keeps (Machine.keeps_retargeted _)
      (.refl _) r _
  have hlive : ∀ s ∈ parser.liveStates, s < parser.machine.size := fun s hs =>
    lt_of_live (himage.lt_of_lands hlands) hs
  have hidle : ∀ s ∈ parser.liveStates, ¬ parser.machine.Idle s :=
    Machine.not_idle_of_skipForwarding
      (htracks.not_passes_around hg hloops hroot) hmachine hentry
  have hpos : 0 < options.maxTableTargets := by
    unfold Options.maxTableTargets
    rw [Nat.one_shiftLeft]
    exact Nat.two_pow_pos _
  refine ⟨fun s hs => ?_, fun s hs t ht hname => ?_⟩
  · have hlt := hlive s hs
    obtain ⟨role, _, _, hrealizes⟩ := himage.role_of_lt hlt
    have hkeys :=
      himage.keysFit hlt hmoved hpos (hformed.keys s (hmoved.size ▸ hlt))
    exact {
      inside := hlt
      targets := fun edge hedge => himage.inside hg hedge
      final := himage.final hg hlt
      keys := hkeys.mono (Options.maxTableTargets_le hoptions)
      consumes := fun hkind edge hedge => by
        refine Bool.eq_false_iff.mpr fun hstays => hidle s hs ?_
        rw [hkind] at hkeys
        exact ⟨edge, hkind, List.map_eq_nil_iff.mp hkeys, hedge, hstays,
          hrealizes.empty hkind hedge⟩
      slots := fun slot callback hkind =>
        himage.slotted (hg.slotsAllocated hspans) hlt hkind }
  · rw [hmoved.names, hmoved.names] at hname
    exact hformed.names s t (hmoved.size ▸ hlive s hs)
      (hmoved.size ▸ hlive t ht) hname

end Parser

end Bytewise

/-
Machines that differ in their tables only.

A state that branches on bytes and one that looks them up in a table do
the same (`Interchanged`) if they choose alike on every byte. Edges of the
one may be many where the other has one for all bytes of a target, but
targets first occur in one order (`Swapped`), and that is all a walk sees
of them. States that are swapped do not pass on, so machines that are
twins stay so while forwarding states are removed.
-/
import Bytewise.Parser.OfGraph
import Bytewise.Proofs.Execution.Basic
import Bytewise.Proofs.Machine.Abreast

namespace Bytewise

namespace Machine

-- =========================================================== two states

/-- What a state with these edges does on a byte that it branches on: where it
goes, whether the byte stays unread and what is passed. Nothing if the byte is
left to the otherwise edge. -/
def choose (edges : List Edge) (b : UInt8) :
    Option (StateId × Bool × Option Int64) :=
  (edges.find? (·.takes b)).map fun edge =>
    (edge.target, edge.noAdvance, edge.value)

/-- One of the kinds branches on bytes, the other looks them up. -/
def StateKind.Counterparts (kind kind' : StateKind) : Prop :=
  kind = .single ∧ kind' = .table ∨ kind = .table ∧ kind' = .single

/-- One of the states branches on bytes where the other looks them up, and
nothing else tells them apart. -/
structure State.Interchanged (s s' : State) : Prop where
  kinds : s.kind.Counterparts s'.kind
  name : s.name = s'.name
  nodeName : s.nodeName = s'.nodeName
  transform : s.transform = s'.transform
  otherwise : s.otherwise = s'.otherwise
  choice : ∀ b, choose s.edges b = choose s'.edges b

/-- Interchanged states whose targets first occur in one order. -/
structure State.Swapped (s s' : State) :
    Prop extends State.Interchanged s s' where
  order : firsts [] (s.edges.map (·.target)) = firsts []
    (s'.edges.map (·.target))

/-- The states are equal, or they are swapped and such states are admitted. -/
def State.Twins (swaps : Prop) (s s' : State) : Prop :=
  s = s' ∨ swaps ∧ s.Swapped s'

variable {swaps : Prop} {s s' : State}

theorem StateKind.Counterparts.symm {kind kind' : StateKind}
    (h : kind.Counterparts kind') :
    kind'.Counterparts kind :=
  (Or.symm h).imp And.symm And.symm

theorem StateKind.Counterparts.ne {kind kind' : StateKind}
    (h : kind.Counterparts kind') :
    kind ≠ kind' := by
  rcases h with ⟨rfl, rfl⟩ | ⟨rfl, rfl⟩
  · exact StateKind.noConfusion
  · exact StateKind.noConfusion

theorem State.Swapped.symm (h : s.Swapped s') : s'.Swapped s where
  kinds := h.kinds.symm
  name := h.name.symm
  nodeName := h.nodeName.symm
  transform := h.transform.symm
  otherwise := h.otherwise.symm
  choice b := (h.choice b).symm
  order := h.order.symm

theorem State.Twins.symm (h : s.Twins swaps s') : s'.Twins swaps s :=
  h.imp Eq.symm fun ⟨hswaps, hswapped⟩ => ⟨hswaps, hswapped.symm⟩

/-- Twins of one kind are one state. -/
theorem State.Twins.eq_of_kind (h : s.Twins swaps s')
    (hkind : s.kind = s'.kind) : s = s' :=
  h.resolve_right fun ⟨_, hswapped⟩ => hswapped.kinds.ne hkind

/-- The targets of twins first occur in one order. -/
theorem State.Twins.order (h : s.Twins swaps s') :
    firsts [] s.targets = firsts [] s'.targets := by
  rcases h with rfl | ⟨_, hswapped⟩
  · rfl
  · unfold State.targets State.allEdges
    rw [List.map_append, List.map_append, hswapped.otherwise]
    exact firsts_append_congr hswapped.order

variable {f : StateId → StateId}

/-- Moving edges moves their targets. -/
private theorem targets_move (state : State) :
    (state.move f).edges.map (·.target)
        = (state.edges.map (·.target)).map f := by
  unfold State.move
  rw [List.map_map, List.map_map]
  rfl

/-- What is chosen among moved edges is moved. -/
theorem choose_move (edges : List Edge) (b : UInt8) :
    choose (edges.map (·.move f)) b
      = (choose edges b).map fun choice => (f choice.1, choice.2) := by
  unfold choose
  rw [List.find?_map, Option.map_map, Option.map_map]
  rfl

/-- Twins with their targets moved alike are twins. -/
theorem State.Twins.move (h : s.Twins swaps s') :
    (s.move f).Twins swaps (s'.move f) := by
  rcases h with rfl | ⟨hswaps, hswapped⟩
  · exact Or.inl rfl
  · refine Or.inr ⟨hswaps, ⟨⟨hswapped.kinds, hswapped.name, hswapped.nodeName,
      hswapped.transform, ?_, fun b => ?_⟩, ?_⟩⟩
    · unfold State.move
      rw [hswapped.otherwise]
    · unfold State.move
      rw [choose_move, choose_move, hswapped.choice b]
    · have hnone : ∀ t ∈ ([] : List StateId), f t ∈ ([] : List StateId) :=
        fun t ht => absurd ht List.not_mem_nil
      rw [targets_move, targets_move, firsts_map hnone, hswapped.order,
        ← firsts_map hnone]

/-- Neither of two swapped states passes on. -/
theorem StateKind.Counterparts.not_empty {kind kind' : StateKind}
    (h : kind.Counterparts kind') :
    kind ≠ .empty ∧ kind' ≠ .empty := by
  rcases h with ⟨rfl, rfl⟩ | ⟨rfl, rfl⟩
  · exact ⟨StateKind.noConfusion, StateKind.noConfusion⟩
  · exact ⟨StateKind.noConfusion, StateKind.noConfusion⟩

/-- Being twins outlasts moves of edges. -/
theorem State.steady_twins (swaps : Prop) :
    State.Steady (State.Twins swaps) where
  passes {s s'} h edge := by
    rcases h with rfl | ⟨_, hswapped⟩
    · exact Iff.rfl
    · obtain ⟨hs, hs'⟩ := hswapped.kinds.not_empty
      exact iff_of_false (fun hpasses => hs hpasses.kind) fun hpasses =>
        hs' hpasses.kind
  order h := h.order
  move h _ := h.move

-- ========================================================= two machines

variable {m m' : Machine}

/-- The machines have the same codes, and states that are twins, one by one. -/
structure Twins (swaps : Prop) (m m' : Machine) : Prop where
  codes : m.codes = m'.codes
  size : m.size = m'.size
  states : ∀ id, (m.state id).Twins swaps (m'.state id)

theorem Twins.symm (h : m.Twins swaps m') : m'.Twins swaps m where
  codes := h.codes.symm
  size := h.size.symm
  states id := (h.states id).symm

theorem Twins.abreast (h : m.Twins swaps m') :
    Abreast (State.Twins swaps) m m' :=
  ⟨h.size, fun id _ => h.states id⟩

/-- Machines that are abreast and have the same codes are twins. -/
theorem Abreast.twins (h : Abreast (State.Twins swaps) m m')
    (hcodes : m.codes = m'.codes) :
    m.Twins swaps m' :=
  ⟨hcodes, h.size, fun id => (h.related id).elim
    (fun hstates => hstates) Or.inl⟩

/-- States changed alike stay twins. -/
theorem Twins.modify (h : m.Twins swaps m') (id : StateId)
    {change change' : State → State}
    (hchange : (change (m.state id)).Twins swaps (change' (m'.state id))) :
    (m.modifyState id change).Twins swaps (m'.modifyState id change') :=
  (h.abreast.modify id fun _ => hchange).twins h.codes

/-- The removal of forwarding states leaves twins, with one root. -/
theorem Twins.skipForwarding (h : m.Twins swaps m') (root : StateId)
    (ids : List StateId) :
    (m.skipForwarding root ids).1.Twins swaps (m'.skipForwarding root ids).1
      ∧ (m.skipForwarding root ids).2 = (m'.skipForwarding root ids).2 := by
  obtain ⟨habreast, hroot⟩ :=
    h.abreast.skipForwarding (State.steady_twins swaps) root ids
  have hcodes := (onward_skipForwarding m root ids).codes
  have hcodes' := (onward_skipForwarding m' root ids).codes
  exact ⟨habreast.twins (hcodes.trans (h.codes.trans hcodes'.symm)), hroot⟩

/-- Twins list the same states in the same order. -/
theorem Twins.enumerate (h : m.Twins swaps m') (root : StateId) :
    m.enumerate root = m'.enumerate root :=
  h.abreast.enumerate (State.steady_twins swaps) root

/-- Twins may be left for the same states. -/
theorem Twins.resumeTargets (h : m.Twins swaps m') (id : StateId) :
    m.resumeTargets id = m'.resumeTargets id := by
  unfold Machine.resumeTargets
  rcases h.states id with heq | ⟨_, hswapped⟩
  · rw [heq]
  · rcases hswapped.kinds with ⟨hs, hs'⟩ | ⟨hs, hs'⟩
    · simp [hs, hs']
    · simp [hs, hs']

end Machine

end Bytewise

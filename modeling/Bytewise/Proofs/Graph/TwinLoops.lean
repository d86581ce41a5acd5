/-
The search for unread loops does not depend on how nodes are numbered.

Bytes are spread in lockstep: matched nodes wait in the same order and get
the same bytes. The bounds of the two graphs differ, but neither is what
ends the spreading or the search, so both end together, and find the same
loop or none.
-/
import Bytewise.Proofs.Graph.Loops
import Bytewise.Proofs.Graph.Matching

namespace Bytewise

variable {m : NodeId → NodeId → Prop} {codes : CodeRef → CodeRef → Prop}
  {spans : SpanId → SpanId → Prop}

-- ============================================================ passing

theorem Edge.Matches.firstByte {edge edge' : Edge} (h : edge.Matches m edge') :
    edge.firstByte? = edge'.firstByte? := by
  unfold Edge.firstByte?
  rw [h.key]

theorem Node.Matches.consumedBytes {node node' : Node}
    (h : Node.Matches m codes spans node node') :
    node.consumedBytes = node'.consumedBytes := by
  unfold Node.consumedBytes
  rw [filterMap_of_forall₂ (filter_of_forall₂ h.edges fun _ _ hedge => by
    rw [hedge.noAdvance])
    fun _ _ hedge => hedge.firstByte]

/-- The same bytes flow to matched nodes. -/
def FlowMatches (m : NodeId → NodeId → Prop) (flow flow' : NodeId × ByteSet) :
    Prop :=
  m flow.1 flow'.1 ∧ flow.2 = flow'.2

theorem Node.Matches.unreadFlow {node node' : Node}
    (h : Node.Matches m codes spans node node') (arriving : ByteSet) :
    List.Forall₂ (FlowMatches m) (node.unreadFlow arriving)
        (node'.unreadFlow arriving) := by
  unfold Node.unreadFlow
  dsimp only
  rw [← h.consumedBytes]
  split
  · exact .nil
  · refine filter_of_forall₂ ?_ fun flow flow' hflow => by rw [hflow.2]
    rw [List.forall₂_map_left_iff, List.forall₂_map_right_iff]
    refine (filter_of_forall₂ h.allEdges fun _ _ hedge => hedge.noAdvance).imp
      fun edge edge' hedge => ⟨hedge.target, ?_⟩
    unfold Edge.passing
    rw [hedge.firstByte]

namespace Graph

variable {g g' : Graph}

-- ========================================================== spreading

/-- Matched nodes have the same bytes. -/
abbrev ArrivalsMatch (m : NodeId → NodeId → Prop)
    (arrivals arrivals' : Arrivals) : Prop :=
  ArraysMatch m Eq ∅ ∅ arrivals arrivals'

/-- Matched nodes wait in one order and have the same bytes. -/
structure SpreadMatches (m : NodeId → NodeId → Prop)
    (state state' : List NodeId × Arrivals) :
    Prop where
  waiting : List.Forall₂ m state.1 state'.1
  arrivals : ArrivalsMatch m state.2 state'.2

theorem pour_matches (hm : Relator.BiUnique m)
    {state state' : List NodeId × Arrivals} {flow flow' : NodeId × ByteSet}
    (h : SpreadMatches m state state') (hflow : FlowMatches m flow flow') :
    SpreadMatches m (pour state flow) (pour state' flow') := by
  obtain ⟨waiting, arrivals⟩ := state
  obtain ⟨waiting', arrivals'⟩ := state'
  obtain ⟨target, bytes⟩ := flow
  obtain ⟨target', bytes'⟩ := flow'
  obtain ⟨htarget, rfl⟩ : m target target' ∧ bytes = bytes' := hflow
  have hheld := h.arrivals.held target target' htarget
  unfold pour
  dsimp only at hheld ⊢
  rw [← hheld]
  split
  · exact h
  · exact ⟨extend_of_forall₂ hm h.waiting htarget,
      h.arrivals.set hm htarget rfl⟩

/-- One node that waits passes its bytes on; this is paid for. -/
private theorem pours_paid (hg : g.Sound) (id : NodeId) (waiting : List NodeId)
    {arrivals : Arrivals} (hsize : arrivals.size = g.size) :
    let next := ((g.node id).unreadFlow (arrivals.getD id ∅)).foldl pour
      (waiting, arrivals)
    next.2.size = g.size
      ∧ next.1.length + next.2.missing ≤ waiting.length
          + arrivals.missing := by
  have hflow : ∀ flow ∈ (g.node id).unreadFlow (arrivals.getD id ∅),
      flow.1 < arrivals.size :=
    fun flow hflow => hsize ▸ hg.target_lt
      (Live.leads (List.mem_map_of_mem hflow))
  obtain ⟨hgrows, _⟩ := @pours_grow _ (waiting, arrivals) hflow
  exact ⟨hgrows.size.trans hsize, hgrows.paid⟩

/-- Bytes are spread alike, if both bounds cover who waits and what is
missing. -/
theorem spread_matches (h : Graph.Matches m spans g g') {bound bound' : Nat}
    {waiting waiting' : List NodeId} {arrivals arrivals' : Arrivals}
    (hstate : SpreadMatches m (waiting, arrivals) (waiting', arrivals'))
    (hsize : arrivals.size = g.size) (hsize' : arrivals'.size = g'.size)
    (hbound : waiting.length + arrivals.missing ≤ bound)
    (hbound' : waiting'.length + arrivals'.missing ≤ bound') :
    ArrivalsMatch m (g.spread bound waiting arrivals)
        (g'.spread bound' waiting' arrivals') := by
  induction bound generalizing bound' waiting waiting' arrivals arrivals' with
  | zero =>
      obtain rfl : waiting = [] := List.length_eq_zero_iff.mp (by omega)
      cases hstate.waiting
      cases bound' <;> exact hstate.arrivals
  | succ bound ih =>
      obtain ⟨hwaiting, harrivals⟩ := id hstate
      dsimp only at hwaiting harrivals
      cases hwaiting with
      | nil => cases bound' <;> exact harrivals
      | @cons id id' waiting waiting' hid hrest =>
          cases bound' with
          | zero => exact absurd hbound' (by rw [List.length_cons]; omega)
          | succ bound' =>
              have hflows :=
                (h.nodes id id' hid).unreadFlow (arrivals.getD id ∅)
              have hstate : SpreadMatches m (waiting, arrivals)
                  (waiting', arrivals') :=
                ⟨hrest, harrivals⟩
              have hnext := List.rel_foldl (P := SpreadMatches m)
                (R := FlowMatches m)
                (fun _ _ hs _ _ hflow => pour_matches h.unique hs hflow)
                  hstate hflows
              obtain ⟨hleft, hpaid⟩ := pours_paid h.left id waiting hsize
              obtain ⟨hright, hpaid'⟩ := pours_paid h.right id' waiting' hsize'
              rw [List.length_cons] at hbound hbound'
              unfold spread
              dsimp only
              rw [← harrivals.held id id' hid] at hright hpaid' ⊢
              exact ih hnext hleft hright (by omega) (by omega)

/-- From matched nodes the same bytes arrive at matched nodes. -/
theorem arrivalsFrom_matches (h : Graph.Matches m spans g g')
    {start start' : NodeId} (hstart : m start start') :
    ArrivalsMatch m (g.arrivalsFrom start) (g'.arrivalsFrom start') := by
  have hfirst : ArrivalsMatch m
      ((Array.replicate g.size ∅).setIfInBounds start ByteSet.full)
      ((Array.replicate g'.size ∅).setIfInBounds start' ByteSet.full) :=
    (ArraysMatch.replicate h.inside rfl).set h.unique hstart rfl
  have hmissing : ∀ (g : Graph) (start : NodeId),
      [start].length + Arrivals.missing
      ((Array.replicate g.size ∅).setIfInBounds start ByteSet.full)
          ≤ 256 * g.size + 1 := by
    intro g start
    have hle :=
      Arrivals.missing_le
        ((Array.replicate g.size ∅).setIfInBounds start ByteSet.full)
    rw [Array.size_setIfInBounds, Array.size_replicate] at hle
    rw [List.length_singleton]
    omega
  exact spread_matches h ⟨.cons hstart .nil, hfirst⟩ (by simp) (by simp)
    (hmissing g start)
    (hmissing g' start')

-- =========================================================== searching

variable {arrivals arrivals' : Arrivals}

theorem liveTargets_matches (h : Graph.Matches m spans g g')
    (harrivals : ArrivalsMatch m arrivals arrivals') {n n' : NodeId}
    (hn : m n n') :
    List.Forall₂ m (g.liveTargets arrivals n)
        (g'.liveTargets arrivals' n') := by
  unfold liveTargets
  rw [← harrivals.held n n' hn, List.forall₂_map_left_iff,
    List.forall₂_map_right_iff]
  exact ((h.nodes n n' hn).unreadFlow _).imp fun _ _ hflow => hflow.1

/-- A path of nodes of a graph, each once, is not longer than the graph is
large. -/
private theorem length_path_le {path : List NodeId} (hnodup : path.Nodup)
    (hpath : ∀ x ∈ path, x < g.size) : path.length ≤ g.size := by
  have hsub : path ⊆ List.range g.size :=
    fun x hx => List.mem_range.mpr (hpath x hx)
  simpa using (hnodup.subperm hsub).length_le

/-- Neither of two matched paths is longer than its graph is large. -/
private theorem length_paths_le (h : Graph.Matches m spans g g')
    {path path' : List NodeId} (hpath : List.Forall₂ m path path')
    (hnodup : path.Nodup) :
    path.length ≤ g.size ∧ path'.length ≤ g'.size := by
  refine ⟨length_path_le hnodup fun x hx => ?_,
    length_path_le ((List.rel_nodup h.unique hpath).mp hnodup)
      fun x' hx' => ?_⟩
  · obtain ⟨x', _, hx⟩ := exists_of_mem_left hpath hx
    exact (h.inside x x' hx).1
  · obtain ⟨x, _, hx⟩ := exists_of_mem_right hpath hx'
    exact (h.inside x x' hx).2

/-- Searches from matched nodes, along matched paths, find the same loop or
mark matched nodes. -/
theorem searchCycle_agrees (h : Graph.Matches m spans g g')
    (harrivals : ArrivalsMatch m arrivals arrivals') {depth depth' : Nat}
    {path path' : List NodeId} {id id' : NodeId} {done done' : Array Bool}
    (hpath : List.Forall₂ m path path') (hnodup : path.Nodup)
    (hdepth : g.size < depth + path.length)
    (hdepth' : g'.size < depth' + path'.length) (hid : m id id')
    (hdone : Exploration.MarksMatch m done done') :
    Agree (Exploration.MarksMatch m)
      (searchCycle g arrivals depth path id done)
      (searchCycle g' arrivals' depth' path' id' done') := by
  induction depth generalizing depth' path path' id id' done done' with
  | zero =>
      have hle := (length_paths_le h hpath hnodup).1
      omega
  | succ depth ih =>
      cases depth' with
      | zero =>
          have hle := (length_paths_le h hpath hnodup).2
          omega
      | succ depth' =>
          unfold searchCycle
          rw [← hdone.held id id' hid]
          split
          · exact .ok hdone
          · refine (Agree.foldlM (liveTargets_matches h harrivals hid)
              (fun done done' next next' hdone hnext => ?_) hdone).bind
                fun last last' hlast => .ok (hlast.set h.unique hid rfl)
            rw [← contains_of_forall₂ h.unique hpath hnext]
            split
            · have hnames : path.reverse.map (fun id => (g.node id).name)
                  = path'.reverse.map (fun id => (g'.node id).name) :=
                map_of_forall₂ (List.rel_reverse hpath) fun x x' hx =>
                  h.name hx
              rw [h.name hnext, hnames]
              exact .error _
            · rename_i hfresh
              have hfresh : next ∉ path := mt List.contains_iff_mem.mpr hfresh
              have hpath' : List.Forall₂ m (next :: path) (next' :: path') :=
                .cons hnext hpath
              have hnodup' : (next :: path).Nodup :=
                List.nodup_cons.mpr ⟨hfresh, hnodup⟩
              refine ih hpath' hnodup' ?_ ?_ hnext hdone
              · rw [List.length_cons]
                omega
              · rw [List.length_cons]
                omega

/-- What a root leads to has an unread loop on both sides, or on neither. -/
theorem checkLoops_eq (h : Graph.Matches m spans g g') {root root' : NodeId}
    (hroot : m root root') : g.checkLoops root = g'.checkLoops root' := by
  refine (Agree.forM (h.reachable hroot) fun start start' hstart => ?_).eq
  refine (searchCycle_agrees h (arrivalsFrom_matches h hstart) .nil
    List.nodup_nil ?_ ?_ hstart
    (ArraysMatch.replicate h.inside rfl)).bind fun _ _ _ => .ok rfl
  · rw [List.length_nil]
    omega
  · rw [List.length_nil]
    omega

end Graph

end Bytewise

/-
What the search for unread loops finds out.

`Node.Passes` says of a single byte what the search says of sets: along
which edges the byte can go without being read. `arrivalsFrom` is closed
under it (`arrivalsFrom_closed`): a node whose bytes grow waits, and every
wait is paid for by a byte some node did not have, so the bound on the
number of steps is never what ends the spreading. A search that finds no
cycle shows that no path of live edges goes on for ever
(`ends_of_checkLoopsFrom`): nodes are marked done only after their targets.
-/
import Mathlib.Data.List.Perm.Subperm
import Bytewise.Graph.Loops
import Bytewise.Proofs.ByteSet
import Bytewise.Proofs.Except
import Bytewise.Proofs.Graph.Reach

namespace Bytewise

-- ============================================================ passing

/-- The byte `c` passes an edge to `target` that does not advance. -/
def Node.Passes (node : Node) (c : UInt8) (target : NodeId) : Prop :=
  node.consumedBytes.contains c = false
    ∧ ∃ e ∈ node.allEdges, e.noAdvance = true ∧ e.target = target
    ∧ ∀ b ∈ e.firstByte?, c = b

/-- A byte is consumed if and only if a consuming keyed edge starts with it. -/
theorem Node.contains_consumedBytes (node : Node) (c : UInt8) :
    node.consumedBytes.contains c = true
      ↔ ∃ e ∈ node.edges, e.noAdvance = false ∧ e.firstByte? = some c := by
  unfold Node.consumedBytes
  rw [ByteSet.contains_ofList, List.contains_iff_mem, List.mem_filterMap]
  constructor
  · intro hsome
    obtain ⟨e, he, hc⟩ := hsome
    obtain ⟨hmem, hadv⟩ := List.mem_filter.mp he
    exact ⟨e, hmem, by simpa using hadv, hc⟩
  · intro hsome
    obtain ⟨e, hmem, hadv, hc⟩ := hsome
    exact ⟨e, List.mem_filter.mpr ⟨hmem, by simpa using hadv⟩, hc⟩

/-- The bytes that pass an edge are those that its key, if there is one, starts
with. -/
theorem Edge.contains_passing (e : Edge) (bytes : ByteSet) (c : UInt8) :
    (e.passing bytes).contains c = true ↔ bytes.contains c = true
        ∧ ∀ b ∈ e.firstByte?, c = b := by
  unfold Edge.passing
  cases h : e.firstByte? with
  | none => simp
  | some b => simp

/-- A flow carries the bytes that arrive and pass. -/
theorem Node.mem_unreadFlow {node : Node} {arriving : ByteSet} {c : UInt8}
    {target : NodeId} :
    (∃ bytes, (target, bytes) ∈ node.unreadFlow arriving
      ∧ bytes.contains c = true)
      ↔ arriving.contains c = true ∧ node.Passes c target := by
  have hleft : (arriving.diff node.consumedBytes).contains c = true
      ↔ arriving.contains c = true ∧ node.consumedBytes.contains c
          = false := by
    rw [ByteSet.contains_diff, Bool.and_eq_true, Bool.not_eq_true']
  unfold Node.unreadFlow
  dsimp only
  constructor
  · intro hsome
    obtain ⟨bytes, hmem, hc⟩ := hsome
    split at hmem
    · cases hmem
    · obtain ⟨e, he, heq⟩ := List.mem_map.mp (List.mem_filter.mp hmem).1
      obtain ⟨hedge, hadv⟩ := List.mem_filter.mp he
      obtain ⟨rfl, rfl⟩ := Prod.mk.inj heq
      obtain ⟨hc, hkey⟩ := (e.contains_passing _ c).mp hc
      obtain ⟨harr, hcons⟩ := hleft.mp hc
      exact ⟨harr, hcons, e, hedge, hadv, rfl, hkey⟩
  · intro hclosing
    obtain ⟨harr, hcons, e, hedge, hadv, rfl, hkey⟩ := hclosing
    have hc := (e.contains_passing (arriving.diff node.consumedBytes) c).mpr
      ⟨hleft.mpr ⟨harr, hcons⟩, hkey⟩
    have hsome : (arriving.diff node.consumedBytes).isEmpty ≠ true :=
      fun h => by
      have := (ByteSet.isEmpty_iff _).mp h c
      rw [hleft.mpr ⟨harr, hcons⟩] at this
      cases this
    have hkept : (!(e.passing (arriving.diff node.consumedBytes)).isEmpty)
        = true := by
      rw [Bool.not_eq_true', Bool.eq_false_iff]
      intro h
      have := (ByteSet.isEmpty_iff _).mp h c
      rw [hc] at this
      cases this
    rw [if_neg hsome]
    exact ⟨_, List.mem_filter.mpr
      ⟨List.mem_map.mpr ⟨e, List.mem_filter.mpr ⟨hedge, hadv⟩, rfl⟩, hkept⟩,
        hc⟩

namespace Graph

variable {g : Graph}

-- ========================================================== spreading

/-- The byte `c` is among those with which `id` can be reached. -/
def Arrivals.Has (arrivals : Arrivals) (id : NodeId) (c : UInt8) : Prop :=
  (arrivals.getD id ∅).contains c = true

/-- How many bytes are missing at the nodes, all together. -/
def Arrivals.missing (arrivals : Arrivals) : Nat :=
  (arrivals.toList.map fun bytes => 256 - bytes.card).sum

/-- No more is missing than every byte at every node. -/
theorem Arrivals.missing_le (arrivals : Arrivals) :
    arrivals.missing ≤ 256 * arrivals.size := by
  have := sum_map_le (f := fun bytes : ByteSet => 256 - bytes.card)
    (fun _ => Nat.sub_le _ _)
    arrivals.toList
  rwa [Array.length_toList] at this

/-- What adding bytes to nodes does: nothing is lost, what grows waits, and who
waits is paid for by a byte that was missing. -/
structure Grows (before after : List NodeId × Arrivals) : Prop where
  size : after.2.size = before.2.size
  paid : after.1.length + after.2.missing ≤ before.1.length + before.2.missing
  waiting : ∀ id ∈ before.1, id ∈ after.1
  kept : ∀ id c, before.2.Has id c → after.2.Has id c
  fresh : ∀ id c, after.2.Has id c → before.2.Has id c ∨ id ∈ after.1

theorem Grows.refl (state : List NodeId × Arrivals) : Grows state state where
  size := rfl
  paid := Nat.le_refl _
  waiting _ h := h
  kept _ _ h := h
  fresh _ _ h := Or.inl h

theorem Grows.trans {a b c : List NodeId × Arrivals} (hab : Grows a b)
    (hbc : Grows b c) :
    Grows a c where
  size := hbc.size.trans hab.size
  paid := Nat.le_trans hbc.paid hab.paid
  waiting id h := hbc.waiting id (hab.waiting id h)
  kept id x h := hbc.kept id x (hab.kept id x h)
  fresh id x h := by
    rcases hbc.fresh id x h with h | h
    · rcases hab.fresh id x h with h | h
      · exact Or.inl h
      · exact Or.inr (hbc.waiting id h)
    · exact Or.inr h

/-- Bytes that a node has already are poured in vain. -/
private theorem pour_same {waiting : List NodeId} {arrivals : Arrivals}
    {target : NodeId} {bytes : ByteSet}
    (h : (arrivals.getD target ∅).union bytes = arrivals.getD target ∅) :
    pour (waiting, arrivals) (target, bytes) = (waiting, arrivals) := by
  unfold pour
  exact if_pos (beq_iff_eq.mpr h)

private theorem pour_more {waiting : List NodeId} {arrivals : Arrivals}
    {target : NodeId} {bytes : ByteSet}
    (h : (arrivals.getD target ∅).union bytes ≠ arrivals.getD target ∅) :
    pour (waiting, arrivals) (target, bytes)
      = (if waiting.contains target then waiting else waiting ++ [target],
          arrivals.setIfInBounds target
              ((arrivals.getD target ∅).union bytes)) := by
  unfold pour
  exact if_neg (mt beq_iff_eq.mp h)

/-- The bytes of the nodes after some were added to one of them. -/
private theorem has_set {arrivals : Arrivals} {target : NodeId}
    (ht : target < arrivals.size) (bytes : ByteSet) (id : NodeId) (c : UInt8) :
    Arrivals.Has (arrivals.setIfInBounds target
        ((arrivals.getD target ∅).union bytes)) id c
      ↔ arrivals.Has id c ∨ (id = target ∧ bytes.contains c = true) := by
  unfold Arrivals.Has
  by_cases hid : id = target
  · subst hid
    simp [ht]
  · simp [hid, Ne.symm hid]

/-- Bytes that are new to a node are missing no more. -/
private theorem missing_set {arrivals : Arrivals} {target : NodeId}
    (ht : target < arrivals.size) {bytes : ByteSet}
    (h : (arrivals.getD target ∅).union bytes ≠ arrivals.getD target ∅) :
    Arrivals.missing
      (arrivals.setIfInBounds target ((arrivals.getD target ∅).union bytes))
      < arrivals.missing := by
  have hget : arrivals.getD target ∅ = arrivals[target] := by
    simp [Array.getD, ht]
  unfold Arrivals.missing
  rw [Array.toList_setIfInBounds]
  refine sum_map_set_lt (by simpa using ht) ?_
  have hlt := ByteSet.card_lt_card_union h
  have hle := ByteSet.card_le ((arrivals.getD target ∅).union bytes)
  rw [Array.getElem_toList, ← hget]
  omega

/-- Adding bytes to a node that is there lets it grow and gives it the
bytes. -/
theorem pour_grows {state : List NodeId × Arrivals} {target : NodeId}
    {bytes : ByteSet} (ht : target < state.2.size) :
    Grows state (pour state (target, bytes))
      ∧ ∀ c, bytes.contains c = true →
          (pour state (target, bytes)).2.Has target c := by
  obtain ⟨waiting, arrivals⟩ := state
  by_cases h : (arrivals.getD target ∅).union bytes = arrivals.getD target ∅
  · rw [pour_same h]
    refine ⟨Grows.refl _, fun c hc => ?_⟩
    show (arrivals.getD target ∅).contains c = true
    rw [← h, ByteSet.contains_union, hc, Bool.or_true]
  · have hmissing := missing_set (show target < arrivals.size from ht) h
    have hlen : (if waiting.contains target then
        waiting else waiting ++ [target]).length
        ≤ waiting.length + 1 := by
      split
      · omega
      · exact Nat.le_of_eq List.length_append
    have hmem : target ∈ if waiting.contains target then
        waiting else waiting ++ [target] := by
      split
      · rename_i hwaits
        exact List.contains_iff_mem.mp hwaits
      · exact List.mem_append_right _ (List.mem_singleton.mpr rfl)
    rw [pour_more h]
    refine ⟨?_, fun c hc => (has_set ht bytes target c).mpr (Or.inr ⟨rfl, hc⟩)⟩
    exact {
      size := by simp
      paid := by
        refine Nat.le_trans (Nat.add_le_add_right hlen _) ?_
        show waiting.length + 1 + Arrivals.missing
            (arrivals.setIfInBounds target
              ((arrivals.getD target ∅).union bytes))
          ≤ waiting.length + arrivals.missing
        omega
      waiting := fun id hid => by
        dsimp only
        split
        · exact hid
        · exact List.mem_append_left _ hid
      kept := fun id c hid => (has_set ht bytes id c).mpr (Or.inl hid)
      fresh := fun id c hid => by
        rcases (has_set ht bytes id c).mp hid with hid | ⟨rfl, _⟩
        · exact Or.inl hid
        · exact Or.inr hmem }

/-- Adding bytes to several nodes. -/
theorem pours_grow {flows : List (NodeId × ByteSet)}
    {state : List NodeId × Arrivals}
    (hlt : ∀ flow ∈ flows, flow.1 < state.2.size) :
    Grows state (flows.foldl pour state)
      ∧ ∀ target bytes, (target, bytes) ∈ flows →
          ∀ c, bytes.contains c = true →
          (flows.foldl pour state).2.Has target c := by
  induction flows generalizing state with
  | nil => exact ⟨Grows.refl _, fun _ _ h => nomatch h⟩
  | cons flow flows ih =>
      obtain ⟨target, bytes⟩ := flow
      obtain ⟨hfirst, hgot⟩ :=
        @pour_grows state target bytes (hlt _ List.mem_cons_self)
      have hlt' : ∀ flow ∈ flows,
          flow.1 < (pour state (target, bytes)).2.size := by
        intro flow hflow
        rw [hfirst.size]
        exact hlt flow (List.mem_cons_of_mem _ hflow)
      obtain ⟨hrest, hall⟩ := ih hlt'
      refine ⟨hfirst.trans hrest, fun target' bytes' hmem c hc => ?_⟩
      rcases List.mem_cons.mp hmem with heq | hmem
      · obtain ⟨rfl, rfl⟩ := Prod.mk.inj heq
        exact hrest.kept _ _ (hgot c hc)
      · exact hall _ _ hmem c hc

/-- A node has no bytes but those it had and those added to it. -/
theorem has_of_pour {state : List NodeId × Arrivals} {target id : NodeId}
    {bytes : ByteSet} {c : UInt8} (ht : target < state.2.size)
    (h : (pour state (target, bytes)).2.Has id c) :
    state.2.Has id c ∨ (id = target ∧ bytes.contains c = true) := by
  obtain ⟨waiting, arrivals⟩ := state
  by_cases hsame : (arrivals.getD target ∅).union bytes
    = arrivals.getD target ∅
  · rw [pour_same hsame] at h
    exact Or.inl h
  · rw [pour_more hsame] at h
    exact (has_set ht bytes id c).mp h

/-- What a node has after pouring it had, or was poured. -/
theorem has_of_pours {flows : List (NodeId × ByteSet)}
    {state : List NodeId × Arrivals} {id : NodeId} {c : UInt8}
    (hlt : ∀ flow ∈ flows, flow.1 < state.2.size)
    (h : (flows.foldl pour state).2.Has id c) :
    state.2.Has id c ∨ ∃ bytes, (id, bytes) ∈ flows
        ∧ bytes.contains c = true := by
  induction flows generalizing state with
  | nil => exact Or.inl h
  | cons flow flows ih =>
      obtain ⟨target, bytes⟩ := flow
      have ht : target < state.2.size := hlt _ List.mem_cons_self
      have hlt' : ∀ flow ∈ flows,
          flow.1 < (pour state (target, bytes)).2.size := by
        intro flow hflow
        rw [(pour_grows ht).1.size]
        exact hlt flow (List.mem_cons_of_mem _ hflow)
      rcases ih hlt' h with h | ⟨bytes', hmem, hc⟩
      · rcases has_of_pour ht h with h | ⟨rfl, hc⟩
        · exact Or.inl h
        · exact Or.inr ⟨bytes, List.mem_cons_self, hc⟩
      · exact Or.inr ⟨bytes', List.mem_cons_of_mem _ hmem, hc⟩

/-- A byte passes an edge between two nodes of a graph. -/
def Passes (g : Graph) (c : UInt8) (a b : NodeId) : Prop :=
  (g.node a).Passes c b

/-- Bytes go unread along edges. -/
theorem Node.target_mem_of_unreadFlow {node : Node} {bytes : ByteSet}
    {flow : NodeId × ByteSet}
    (hflow : flow ∈ node.unreadFlow bytes) : flow.1 ∈ node.targets := by
  unfold Node.unreadFlow at hflow
  dsimp only at hflow
  split at hflow
  · cases hflow
  · obtain ⟨e, he, rfl⟩ := List.mem_map.mp (List.mem_filter.mp hflow).1
    exact List.mem_map_of_mem (List.mem_filter.mp he).1

/-- Bytes go unread to nodes of the graph only. -/
theorem Sound.unreadFlow_lt (hg : g.Sound) {id : NodeId} {bytes : ByteSet} :
    ∀ flow ∈ (g.node id).unreadFlow bytes, flow.1 < g.size :=
  fun _ hflow => hg.target_lt (Node.target_mem_of_unreadFlow hflow)

/-- What a byte passes is passed on, except from nodes that wait. -/
def Spreading (g : Graph) (waiting : List NodeId) (arrivals : Arrivals) :
    Prop :=
  ∀ a b c, arrivals.Has a c → g.Passes c a b → a ∈ waiting ∨ arrivals.Has b c

/-- Spreading ends with all bytes passed on, if its bound covers who waits and
what is missing. -/
theorem spread_closed (hg : g.Sound) {bound : Nat} {waiting : List NodeId}
    {arrivals : Arrivals} (hsize : arrivals.size = g.size)
    (hbound : waiting.length + arrivals.missing ≤ bound)
    (hinv : g.Spreading waiting arrivals) :
    g.Spreading [] (g.spread bound waiting arrivals)
      ∧ ∀ a c, arrivals.Has a c →
          (g.spread bound waiting arrivals).Has a c := by
  induction bound generalizing waiting arrivals with
  | zero =>
      obtain rfl : waiting = [] := List.length_eq_zero_iff.mp (by omega)
      exact ⟨hinv, fun _ _ h => h⟩
  | succ bound ih =>
      cases waiting with
      | nil => exact ⟨hinv, fun _ _ h => h⟩
      | cons id waiting =>
          have hflow : ∀ flow ∈ (g.node id).unreadFlow (arrivals.getD id ∅),
              flow.1 < arrivals.size := by
            rw [hsize]
            exact hg.unreadFlow_lt
          obtain ⟨hgrows, hall⟩ := @pours_grow _ (waiting, arrivals) hflow
          have hstep : g.spread (bound + 1) (id :: waiting) arrivals
              = g.spread bound
                  (((g.node id).unreadFlow (arrivals.getD id ∅)).foldl pour
                  (waiting, arrivals)).1
                    (((g.node id).unreadFlow (arrivals.getD id ∅)).foldl pour
                  (waiting, arrivals)).2 := rfl
          rw [hstep]
          generalize ((g.node id).unreadFlow (arrivals.getD id ∅)).foldl pour
            (waiting, arrivals)
            = next at hgrows hall
          have hpaid : next.1.length + next.2.missing ≤ bound := by
            have : _ ≤ waiting.length + arrivals.missing := hgrows.paid
            rw [List.length_cons] at hbound
            omega
          obtain ⟨hclosed, hkept⟩ :=
            ih (hgrows.size.trans hsize) hpaid fun a b c ha hpass => by
            by_cases hid : a = id
            · -- what `id` had is passed on now, and what it got meanwhile
              -- makes it wait again
              subst hid
              rcases hgrows.fresh a c ha with ha | ha
              · obtain ⟨bytes, hmem, hc⟩ := Node.mem_unreadFlow.mpr ⟨ha, hpass⟩
                exact Or.inr (hall b bytes hmem c hc)
              · exact Or.inl ha
            · rcases hgrows.fresh a c ha with ha | ha
              · rcases hinv a b c ha hpass with hwait | hb
                · rcases List.mem_cons.mp hwait with rfl | hwait
                  · exact absurd rfl hid
                  · exact Or.inl (hgrows.waiting a hwait)
                · exact Or.inr (hgrows.kept b c hb)
              · exact Or.inl ha
          exact ⟨hclosed, fun a c h => hkept a c (hgrows.kept a c h)⟩

/-- From a node all bytes arrive at it, and go on wherever they pass. -/
theorem arrivalsFrom_closed (hg : g.Sound) {start : NodeId}
    (hstart : start < g.size) :
    (∀ c, (g.arrivalsFrom start).Has start c)
      ∧ ∀ a b c, (g.arrivalsFrom start).Has a c → g.Passes c a b →
          (g.arrivalsFrom start).Has b c := by
  have hmissing : Arrivals.missing
      ((Array.replicate g.size ∅).setIfInBounds start ByteSet.full)
          ≤ 256 * g.size := by
    have :=
      Arrivals.missing_le
        ((Array.replicate g.size ∅).setIfInBounds start ByteSet.full)
    rwa [Array.size_setIfInBounds, Array.size_replicate] at this
  have hfirst : g.Spreading [start]
      ((Array.replicate g.size ∅).setIfInBounds start ByteSet.full) := by
    intro a b c ha _
    by_cases h : a = start
    · exact Or.inl (List.mem_singleton.mpr h)
    · unfold Arrivals.Has at ha
      by_cases hlt : a < g.size
      · simp [Ne.symm h, hlt] at ha
      · simp [hlt] at ha
  have hbound : [start].length + Arrivals.missing
      ((Array.replicate g.size ∅).setIfInBounds start ByteSet.full)
          ≤ 256 * g.size + 1 := by
    rw [List.length_singleton]
    omega
  obtain ⟨hclosed, hkept⟩ := spread_closed hg (by simp) hbound hfirst
  refine ⟨fun c => hkept start c ?_, fun a b c ha hpass => ?_⟩
  · unfold Arrivals.Has
    simp [hstart]
  · exact (hclosed a b c ha hpass).resolve_left List.not_mem_nil

-- =========================================================== searching

/-- Some byte that arrives at `a` passes an edge to `b`. -/
def Live (g : Graph) (arrivals : Arrivals) (a b : NodeId) : Prop :=
  b ∈ g.liveTargets arrivals a

/-- A byte that arrives and passes keeps an edge alive. -/
theorem Passes.live {arrivals : Arrivals} {a b : NodeId} {c : UInt8}
    (h : g.Passes c a b) (ha : arrivals.Has a c) : g.Live arrivals a b := by
  obtain ⟨bytes, hmem, _⟩ := Node.mem_unreadFlow.mpr ⟨ha, h⟩
  exact List.mem_map.mpr ⟨_, hmem, rfl⟩

/-- Live edges are edges. -/
theorem Live.leads {arrivals : Arrivals} {a b : NodeId}
    (h : g.Live arrivals a b) :
    g.Leads a b := by
  obtain ⟨flow, hflow, rfl⟩ := List.mem_map.mp h
  exact Node.target_mem_of_unreadFlow hflow

/-- Paths of live edges end, wherever they go from `a`. -/
def Ends (g : Graph) (arrivals : Arrivals) (a : NodeId) : Prop :=
  Acc (fun b a => g.Live arrivals a b) a

/-- Only nodes below which every path ends are marked done. -/
def Finished (g : Graph) (arrivals : Arrivals) (done : Array Bool) : Prop :=
  ∀ a, done.getD a false = true → g.Ends arrivals a

/-- `after` is `before` with more nodes marked done, and rightly so. -/
structure Progresses (g : Graph) (arrivals : Arrivals)
    (before after : Array Bool) : Prop where
  size : after.size = before.size
  kept : ∀ a, before.getD a false = true → after.getD a false = true
  finished : g.Finished arrivals before → g.Finished arrivals after

theorem Progresses.refl {arrivals : Arrivals} (done : Array Bool) :
    g.Progresses arrivals done done where
  size := rfl
  kept _ h := h
  finished h := h

theorem Progresses.trans {arrivals : Arrivals} {a b c : Array Bool}
    (hab : g.Progresses arrivals a b) (hbc : g.Progresses arrivals b c) :
    g.Progresses arrivals a c where
  size := hbc.size.trans hab.size
  kept id h := hbc.kept id (hab.kept id h)
  finished h := hbc.finished (hab.finished h)

/-- Marking a node below which every path ends. -/
private theorem Progresses.mark {arrivals : Arrivals} {done : Array Bool}
    {id : NodeId} (hid : g.Ends arrivals id) :
    g.Progresses arrivals done (done.setIfInBounds id true) where
  size := Array.size_setIfInBounds
  kept a ha := by
    by_cases h : a = id
    · subst h
      by_cases hlt : a < done.size
      · simp [hlt]
      · simp [hlt] at ha
    · simpa [Ne.symm h] using ha
  finished hdone a ha := by
    by_cases h : a = id
    · rw [h]
      exact hid
    · exact hdone a (by simpa [Ne.symm h] using ha)

/-- A search that finds no cycle marks its node done. Its path holds nodes of
the graph, each once, so the search is never cut short. -/
theorem searchCycle_progresses (hg : g.Sound) {arrivals : Arrivals}
    {depth : Nat} {path : List NodeId} {id : NodeId} {done done' : Array Bool}
    (hnodup : path.Nodup) (hpath : ∀ x ∈ path, x < g.size)
    (hdepth : g.size < depth + path.length) (hid : id < g.size)
    (hsize : done.size = g.size) (hdone : g.Finished arrivals done)
    (hrun : searchCycle g arrivals depth path id done = .ok done') :
    g.Progresses arrivals done done' ∧ done'.getD id false = true := by
  induction depth generalizing path id done done' with
  | zero =>
      have hlen : path.length ≤ g.size := by
        have hsub : path ⊆ List.range g.size :=
          fun x hx => List.mem_range.mpr (hpath x hx)
        simpa using (hnodup.subperm hsub).length_le
      omega
  | succ depth ih =>
      unfold searchCycle at hrun
      split at hrun
      · rename_i hmarked
        obtain rfl : done = done' := Except.ok.inj hrun
        exact ⟨Progresses.refl done, hmarked⟩
      · obtain ⟨mid, hfold, hmark⟩ := ok_of_bind hrun
        obtain rfl : mid.setIfInBounds id true = done' := Except.ok.inj hmark
        obtain ⟨hprog, hall⟩ := foldlM_ok (R := g.Progresses arrivals)
          (Q := fun next done => done.getD next false = true) Progresses.refl
          Progresses.trans
          (fun h => h.kept _) (fun before after next hnext hbefore hvisit => by
            split at hvisit
            · cases hvisit
            · rename_i hfresh
              have hfresh : next ∉ path := mt List.contains_iff_mem.mpr hfresh
              have hlt : next < g.size := hg.target_lt (Live.leads hnext)
              refine ih (List.nodup_cons.mpr ⟨hfresh, hnodup⟩)
                (fun x hx => ?_) ?_ hlt
                (hbefore.size.trans hsize) (hbefore.finished hdone) hvisit
              · rcases List.mem_cons.mp hx with rfl | hx
                · exact hlt
                · exact hpath x hx
              · rw [List.length_cons]
                omega) hfold
        have hends : g.Ends arrivals id := Acc.intro id fun next hnext =>
          hprog.finished hdone next (hall next hnext)
        refine ⟨hprog.trans (Progresses.mark hends), ?_⟩
        simp [hprog.size, hsize, hid]

/-- If a start is accepted, every path of edges that are live from it ends. -/
theorem ends_of_checkLoopsFrom (hg : g.Sound) {start : NodeId}
    (hstart : start < g.size) (hok : g.checkLoopsFrom start = .ok ()) :
    g.Ends (g.arrivalsFrom start) start := by
  obtain ⟨done, hrun, _⟩ := ok_of_bind hok
  have hnone : g.Finished (g.arrivalsFrom start)
      (Array.replicate g.size false) := by
    intro a ha
    by_cases hlt : a < g.size
    · simp [hlt] at ha
    · simp [hlt] at ha
  have hpath : ∀ x ∈ ([] : List NodeId), x < g.size := fun x hx => nomatch hx
  obtain ⟨hprog, hmark⟩ := searchCycle_progresses hg List.nodup_nil hpath
    (by rw [List.length_nil]; omega) hstart (by simp) hnone hrun
  exact hprog.finished hnone start hmark

/-- What is accessible is not related to itself. -/
private theorem not_rel_self {r : NodeId → NodeId → Prop} {a : NodeId}
    (h : Acc r a) : ¬ r a a := by
  induction h with
  | intro a _ ih => exact fun haa => ih a haa haa

/-- Where every path ends, none leads around. -/
theorem Ends.not_round {arrivals : Arrivals} {start a : NodeId}
    (h : g.Ends arrivals start)
    (hway : Relation.ReflTransGen (g.Live arrivals) start a) :
    ¬ Relation.TransGen (g.Live arrivals) a a := by
  have hacc : Acc (fun b a => g.Live arrivals a b) a := by
    induction hway with
    | refl => exact h
    | tail _ hlive ih => exact ih.inv hlive
  exact fun hround => not_rel_self hacc.transGen
    (Relation.transGen_swap.mpr hround)

/-- If a start is accepted, no byte comes back to it unread by edges it
passes. -/
theorem not_passes_around (hg : g.Sound) {start : NodeId}
    (hstart : start < g.size) (hok : g.checkLoopsFrom start = .ok ())
    (c : UInt8) :
    ¬ Relation.TransGen (g.Passes c) start start := by
  intro hround
  obtain ⟨hfull, hclosed⟩ := arrivalsFrom_closed hg hstart
  have hlive : ∀ b, Relation.TransGen (g.Passes c) start b →
      (g.arrivalsFrom start).Has b c
        ∧ Relation.TransGen (g.Live (g.arrivalsFrom start)) start b := by
    intro b hb
    induction hb with
    | single hpass =>
        exact ⟨hclosed _ _ c (hfull c) hpass, .single (hpass.live (hfull c))⟩
    | tail _ hpass ih =>
        exact ⟨hclosed _ _ c ih.1 hpass, ih.2.tail (hpass.live ih.1)⟩
  exact (ends_of_checkLoopsFrom hg hstart hok).not_round .refl
    (hlive start hround).2

end Graph

end Bytewise

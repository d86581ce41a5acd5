/-
Spans are allocated alike, however nodes and spans are numbered.

Open spans are passed on in lockstep, and fail on the same edge if they
do. Spans are matched in their order, so sets of them, which are kept
ascending, stay matched element by element; the order in which slots are
given falls back on the numbers of spans only between two of one name. At
nodes that are not matched nothing is open, since they are not reached, so
the same spans overlap and get the same slots.
-/
import Bytewise.Proofs.Graph.Matching
import Bytewise.Proofs.Graph.Slots

namespace Bytewise

variable {m : NodeId → NodeId → Prop} {codes : CodeRef → CodeRef → Prop}
  {spans : SpanId → SpanId → Prop}

-- =============================================================== kinds

section

variable {kind kind' : NodeKind} {s s' : SpanId}

/-- Matched spans are started, and ended, by matched nodes. -/
theorem NodeKind.Matches.span_iff (hspans : Relator.BiUnique spans)
    (h : kind.Matches codes spans kind') (hs : spans s s') :
    (kind = .spanStart s ↔ kind' = .spanStart s')
      ∧ (kind = .spanEnd s ↔ kind' = .spanEnd s') := by
  cases h with
  | spanStart same =>
      rw [NodeKind.spanStart.injEq, NodeKind.spanStart.injEq]
      exact ⟨Relator.rel_eq hspans same hs,
        iff_of_false NodeKind.noConfusion NodeKind.noConfusion⟩
  | spanEnd same =>
      rw [NodeKind.spanEnd.injEq, NodeKind.spanEnd.injEq]
      exact ⟨iff_of_false NodeKind.noConfusion NodeKind.noConfusion,
        Relator.rel_eq hspans same hs⟩
  | _ => exact ⟨iff_of_false NodeKind.noConfusion NodeKind.noConfusion,
      iff_of_false NodeKind.noConfusion NodeKind.noConfusion⟩

end

namespace Graph

variable {g g' : Graph} {root root' : NodeId}

-- ============================================================ passing

/-- Matched spans are inserted in matched places. -/
theorem insert_matches (h : Graph.Matches m spans g g') {set set' : SpanSet}
    {s s' : SpanId} (hset : List.Forall₂ spans set set') (hs : spans s s') :
    List.Forall₂ spans (SpanSet.insert s set) (SpanSet.insert s' set') := by
  induction hset with
  | nil => exact .cons hs .nil
  | @cons first first' rest rest' hfirst hrest ih =>
      have hlt := h.ordered s s' first first' hs hfirst
      have heq : s = first ↔ s' = first' :=
        Relator.rel_eq h.uniqueSpans hs hfirst
      unfold SpanSet.insert
      simp only [hlt, beq_iff_eq, heq]
      split
      · exact .cons hs (.cons hfirst hrest)
      · split
        · exact .cons hfirst hrest
        · exact .cons hfirst ih

/-- At matched nodes matched spans are open. -/
abbrev OpenMatches (m : NodeId → NodeId → Prop)
    (spans : SpanId → SpanId → Prop) (found found' : OpenSpans) : Prop :=
  ArraysMatch m (List.Forall₂ spans) [] [] found found'

/-- Matched nodes wait in one order, and at matched nodes matched spans are
open. -/
structure PassMatches (m : NodeId → NodeId → Prop)
    (spans : SpanId → SpanId → Prop)
    (state state' : List NodeId × OpenSpans) : Prop where
  waiting : List.Forall₂ m state.1 state'.1
  found : OpenMatches m spans state.2 state'.2

/-- Passing a span on agrees, and fails alike. -/
theorem passSpan_agrees (h : Graph.Matches m spans g g')
    {state state' : List NodeId × OpenSpans}
    (hstate : PassMatches m spans state state')
    {id id' target target' : NodeId} {s s' : SpanId} (hid : m id id')
    (hs : spans s s') (htarget : m target target') :
    Agree (PassMatches m spans) (g.passSpan id s state target)
      (g'.passSpan id' s' state' target') := by
  obtain ⟨waiting, found⟩ := state
  obtain ⟨waiting', found'⟩ := state'
  have hwaiting : List.Forall₂ m waiting waiting' := hstate.waiting
  have hfound : OpenMatches m spans found found' := hstate.found
  have hthere := hfound.held target target' htarget
  have hkind :=
    ((h.nodes target target' htarget).kind.span_iff h.uniqueSpans hs).1
  unfold passSpan
  dsimp only
  simp only [beq_iff_eq, hkind]
  split
  · rw [h.spanName hs, h.name hid]
    exact .error _
  · rw [← contains_of_forall₂ h.uniqueSpans hthere hs]
    split
    · exact .ok hstate
    · exact .ok ⟨extend_of_forall₂ h.unique hwaiting htarget,
        hfound.set h.unique htarget (insert_matches h hthere hs)⟩

/-- At matched nodes matched spans are open from there on. -/
theorem startedHere_matches (h : Graph.Matches m spans g g')
    {found found' : OpenSpans} (hfound : OpenMatches m spans found found')
    {id id' : NodeId} (hid : m id id') :
    List.Forall₂ spans (startedHere g id found)
        (startedHere g' id' found') := by
  have hhere := hfound.held id id' hid
  have hkind := (h.nodes id id' hid).kind
  unfold startedHere
  generalize (g.node id).kind = kind at hkind
  generalize (g'.node id').kind = kind' at hkind
  cases hkind with
  | spanStart same => exact insert_matches h hhere same
  | _ => exact hhere

/-- Passing on all spans of a node agrees. -/
theorem passSpans_agrees (h : Graph.Matches m spans g g')
    {state state' : List NodeId × OpenSpans}
    (hstate : PassMatches m spans state state') {id id' : NodeId}
    (hid : m id id') :
    Agree (PassMatches m spans) (g.passSpans id state)
        (g'.passSpans id' state') := by
  obtain ⟨waiting, found⟩ := state
  obtain ⟨waiting', found'⟩ := state'
  have hnode := h.nodes id id' hid
  have hhere := startedHere_matches h hstate.found hid
  rw [passSpans_eq, passSpans_eq]
  refine Agree.foldlM (filter_of_forall₂ hhere fun s s' hs => ?_)
    (fun state state' s s' hstate hs => ?_)
    ⟨hstate.waiting, hstate.found.set h.unique hid hhere⟩
  · have hiff := (hnode.kind.span_iff h.uniqueSpans hs).2
    rw [Bool.eq_iff_iff, bne_iff_ne, bne_iff_ne, ne_eq, ne_eq, hiff]
  · exact Agree.foldlM hnode.targets
      (fun _ _ _ _ hstate htarget => passSpan_agrees h hstate hid hs htarget)
      hstate

/-- Spans are spread alike, if both bounds cover who waits and what is
missing. -/
theorem spreadSpans_agrees (h : Graph.Matches m spans g g')
    {bound bound' : Nat} {state state' : List NodeId × OpenSpans}
    (hstate : PassMatches m spans state state')
    (htrack : g.Tracking root state) (htrack' : g'.Tracking root' state')
    (hbound : state.1.length + state.2.missing g.spans.size ≤ bound)
    (hbound' : state'.1.length + state'.2.missing g'.spans.size ≤ bound') :
    Agree (OpenMatches m spans) (g.spreadSpans bound state)
        (g'.spreadSpans bound' state') := by
  induction bound generalizing bound' state state' with
  | zero =>
      obtain ⟨waiting, found⟩ := state
      obtain ⟨waiting', found'⟩ := state'
      obtain ⟨hwaiting, hfound⟩ := hstate
      dsimp only at hwaiting hbound
      obtain rfl : waiting = [] := List.length_eq_zero_iff.mp (by omega)
      cases hwaiting
      cases bound' <;> exact .ok hfound
  | succ bound ih =>
      obtain ⟨waiting, found⟩ := state
      obtain ⟨waiting', found'⟩ := state'
      obtain ⟨hwaiting, hfound⟩ := hstate
      dsimp only at hwaiting hbound hbound'
      cases hwaiting with
      | nil => cases bound' <;> exact .ok hfound
      | @cons id id' waiting waiting' hid hrest =>
          rw [List.length_cons] at hbound hbound'
          cases bound' with
          | zero => omega
          | succ bound' =>
              have hnow : PassMatches m spans (waiting, found)
                  (waiting', found') :=
                ⟨hrest, hfound⟩
              unfold spreadSpans
              refine (passSpans_agrees h hnow hid).answers.bind
                fun next next' hnext => ?_
              obtain ⟨hmatch, hrun, hrun'⟩ := hnext
              obtain ⟨hleft, hpaid⟩ := htrack.pass h.left hrun
              obtain ⟨hright, hpaid'⟩ := htrack'.pass h.right hrun'
              exact ih hmatch hleft hright (by omega) (by omega)

/-- The analysis answers matched spans, or fails alike. -/
theorem openSpans_agrees (h : Graph.Matches m spans g g')
    (hroot : m root root') :
    Agree (OpenMatches m spans) (g.openSpans root) (g'.openSpans root') :=
  spreadSpans_agrees h ⟨h.reachable hroot, ArraysMatch.replicate h.inside .nil⟩
    (h.left.tracking_start root) (h.right.tracking_start root')
    (bound_start g root)
    (bound_start g' root')

-- =============================================================== ends

/-- An end of a span is at fault on both sides or on none. -/
theorem spanFault_eq (h : Graph.Matches m spans g g')
    {found found' : OpenSpans} (hfound : OpenMatches m spans found found')
    {id id' target target' : NodeId} (hid : m id id')
    (htarget : m target target') :
    g.spanFault? found id target = g'.spanFault? found' id' target' := by
  have hhere := hfound.held id id' hid
  have hnode := h.nodes target target' htarget
  have hkind := hnode.kind
  have hmissing : Option.Rel spans
      ((found.getD target []).find? (!(found.getD id []).contains ·))
      ((found'.getD target' []).find? (!(found'.getD id' []).contains ·)) :=
    find_of_forall₂ (hfound.held target target' htarget) fun s s' hs => by
      rw [contains_of_forall₂ h.uniqueSpans hhere hs]
  unfold spanFault?
  dsimp only
  rw [hnode.isTerminal, h.name htarget, h.name hid]
  generalize (found.getD target []).find? _ = missing at hmissing
  generalize (found'.getD target' []).find? _ = missing' at hmissing
  generalize (g.node target).kind = kind at hkind
  generalize (g'.node target').kind = kind' at hkind
  cases hkind with
  | spanStart same => rfl
  | spanEnd same =>
      cases hmissing with
      | none =>
          dsimp only
          rw [contains_of_forall₂ h.uniqueSpans hhere same, h.spanName same]
      | some hs =>
          dsimp only
          rw [h.spanName hs]
  | _ =>
      cases hmissing with
      | none => rfl
      | some hs =>
          dsimp only
          rw [h.spanName hs]

/-- Both checks of span ends pass, or fail alike. -/
theorem checkSpanEnds_eq (h : Graph.Matches m spans g g')
    (hroot : m root root') {found found' : OpenSpans}
    (hfound : OpenMatches m spans found found') :
    Agree Eq (g.checkSpanEnds root found) (g'.checkSpanEnds root' found') := by
  refine Agree.forM (h.reachable hroot) fun id id' hid => ?_
  refine Agree.forM (h.nodes id id' hid).targets fun target target' htarget =>
    ?_
  rw [spanFault_eq h hfound hid htarget]
  exact Agree.refl (fun _ => rfl) _

-- ============================================================== slots

theorem startedSpans_matches (h : Graph.Matches m spans g g')
    (hroot : m root root') :
    List.Forall₂ spans (g.startedSpans root) (g'.startedSpans root') := by
  refine List.rel_foldl (fun set set' hset id id' hid => ?_) .nil
    (h.reachable hroot)
  have hkind := (h.nodes id id' hid).kind
  generalize (g.node id).kind = kind at hkind
  generalize (g'.node id').kind = kind' at hkind
  cases hkind with
  | spanStart same => exact insert_matches h hset same
  | _ => exact hset

/-- Spans get their slots in matched order. -/
theorem slotOrder_matches (h : Graph.Matches m spans g g') {set set' : SpanSet}
    (hset : List.Forall₂ spans set set') :
    List.Forall₂ spans (g.slotOrder set) (g'.slotOrder set') := by
  refine mergeSort_of_forall₂ hset fun s s' hs t t' ht => ?_
  have hle : s ≤ t ↔ s' ≤ t' := by
    have hlt := h.ordered t t' s s' ht hs
    rw [← Nat.not_lt, ← Nat.not_lt, hlt]
  rw [h.spanName hs, h.spanName ht]
  simp only [hle]

/-- The same spans overlap, if spans are open at matched nodes only. -/
theorem overlap_eq (h : Graph.Matches m spans g g') {found found' : OpenSpans}
    (hfound : OpenMatches m spans found found')
    (hleft : ∀ id s, found.Has id s → ∃ id', m id id')
    (hright : ∀ id' s', found'.Has id' s' → ∃ id, m id id')
    {s s' t t' : SpanId} (hs : spans s s') (ht : spans t t') :
    overlap found s t = overlap found' s' t' := by
  have hne : s = t ↔ s' = t' := by
    constructor
    · rintro rfl
      exact h.uniqueSpans.2 hs ht
    · rintro rfl
      exact h.uniqueSpans.1 hs ht
  have hhas : ∀ {id id' : NodeId}, m id id' → ∀ {u u' : SpanId}, spans u u' →
      (found.Has id u ↔ found'.Has id' u') := fun hid _ _ hu =>
    List.rel_mem h.uniqueSpans hu (hfound.held _ _ hid)
  rw [Bool.eq_iff_iff, overlap_iff, overlap_iff, ne_eq, ne_eq, hne]
  refine and_congr_right fun _ => ⟨?_, ?_⟩
  · rintro ⟨id, hids, hidt⟩
    obtain ⟨id', hid⟩ := hleft id s hids
    exact ⟨id', (hhas hid hs).mp hids, (hhas hid ht).mp hidt⟩
  · rintro ⟨id', hids, hidt⟩
    obtain ⟨id, hid⟩ := hright id' s' hids
    exact ⟨id, (hhas hid hs).mpr hids, (hhas hid ht).mpr hidt⟩

/-- Matched spans have one slot. -/
def SlotMatches (spans : SpanId → SpanId → Prop)
    (entry entry' : SpanId × Nat) : Prop :=
  spans entry.1 entry'.1 ∧ entry.2 = entry'.2

/-- Spans that overlap alike get the same slots. -/
theorem assignSlots_matches {found found' : OpenSpans}
    (hoverlap : ∀ s s' t t', spans s s' → spans t t' →
      overlap found s t = overlap found' s' t')
    {order order' : List SpanId} {slots slots' : List (SpanId × Nat)}
    (horder : List.Forall₂ spans order order')
    (hslots : List.Forall₂ (SlotMatches spans) slots slots') :
    List.Forall₂ (SlotMatches spans) (assignSlots found order slots)
      (assignSlots found' order' slots') := by
  induction horder generalizing slots slots' with
  | nil => exact hslots
  | @cons s s' order order' hs _ ih =>
      unfold assignSlots
      have hused : (slots.filter fun entry => overlap found s entry.1).map
          (·.2)
          = (slots'.filter fun entry => overlap found' s' entry.1).map (·.2) :=
        map_of_forall₂ (filter_of_forall₂ hslots fun _ _ hentry =>
          hoverlap _ _ _ _ hs hentry.1) fun _ _ hentry => hentry.2
      dsimp only
      rw [hused]
      exact ih (List.rel_append hslots (.cons ⟨hs, rfl⟩ .nil))

/-- Matched spans have the same slot. -/
theorem lookup_matches (hspans : Relator.BiUnique spans)
    {slots slots' : List (SpanId × Nat)}
    (h : List.Forall₂ (SlotMatches spans) slots slots') {s s' : SpanId}
    (hs : spans s s') :
    slots.lookup s = slots'.lookup s' := by
  induction h with
  | nil => rfl
  | @cons entry entry' _ _ hentry _ ih =>
      obtain ⟨t, slot⟩ := entry
      obtain ⟨t', slot'⟩ := entry'
      obtain ⟨ht, rfl⟩ : spans t t' ∧ slot = slot' := hentry
      have hsame : (s == t) = (s' == t') := by
        rw [Bool.eq_iff_iff, beq_iff_eq, beq_iff_eq]
        constructor
        · rintro rfl
          exact hspans.2 hs ht
        · rintro rfl
          exact hspans.1 hs ht
      rw [List.lookup_cons, List.lookup_cons, hsame, ih]

/-- Matched spans keep their positions in one place. -/
structure AllocationMatches (spans : SpanId → SpanId → Prop)
    (allocation allocation' : SpanAllocation) : Prop where
  slot : ∀ s s', spans s s' → allocation.slot? s = allocation'.slot? s'
  sharing : List.Forall₂ (List.Forall₂ spans) allocation.sharing
    allocation'.sharing

/-- What is open, is so at nodes that are reached, and those are matched. -/
private theorem matched_of_has (h : Graph.Matches m spans g g')
    (hroot : m root root') {found : OpenSpans}
    (hopen : g.openSpans root = .ok found) {id : NodeId} {s : SpanId}
    (hhas : found.Has id s) : ∃ id', m id id' := by
  have hcarries := ((activity_openSpans h.left hopen).has_iff id s).mp hhas
  obtain ⟨id', _, hid⟩ := exists_of_mem_left (h.reachable hroot)
    (h.left.mem_reachable.mpr hcarries.reaches)
  exact ⟨id', hid⟩

/-- Where something is open on the other side, there a node is matched. -/
private theorem matched_of_has' (h : Graph.Matches m spans g g')
    (hroot : m root root') {found : OpenSpans}
    (hopen : g'.openSpans root' = .ok found) {id' : NodeId} {s : SpanId}
    (hhas : found.Has id' s) : ∃ id, m id id' := by
  have hcarries := ((activity_openSpans h.right hopen).has_iff id' s).mp hhas
  obtain ⟨id, _, hid⟩ := exists_of_mem_right (h.reachable hroot)
    (h.right.mem_reachable.mpr hcarries.reaches)
  exact ⟨id, hid⟩

/-- Spans have no slots on both sides, for one cause, or have the same. -/
theorem allocateSpans_agrees (h : Graph.Matches m spans g g')
    (hroot : m root root') :
    Agree (AllocationMatches spans) (g.allocateSpans root)
        (g'.allocateSpans root') := by
  unfold allocateSpans
  refine (openSpans_agrees h hroot).answers.bind fun found found' hboth => ?_
  obtain ⟨hfound, hopen, hopen'⟩ := hboth
  refine (checkSpanEnds_eq h hroot hfound).bind fun _ _ _ => ?_
  have hslots :=
    assignSlots_matches (fun s s' t t' hs ht => overlap_eq h hfound
      (fun _ _ => matched_of_has h hroot hopen)
      (fun _ _ => matched_of_has' h hroot hopen') hs ht)
    (slotOrder_matches h (startedSpans_matches h hroot)) .nil
  generalize assignSlots found (g.slotOrder (g.startedSpans root)) []
    = slots at hslots
  generalize assignSlots found' (g'.slotOrder (g'.startedSpans root')) []
    = slots' at hslots
  have hnumbers : slots.map (·.2) = slots'.map (·.2) :=
    map_of_forall₂ hslots fun _ _ hentry => hentry.2
  dsimp only
  rw [hnumbers]
  refine .ok ⟨fun s s' hs => ?_, ?_⟩
  · refine lookup_matches h.uniqueSpans
      (mergeSort_of_forall₂ hslots fun e e' he o o' ho => ?_) hs
    have hle : e.1 ≤ o.1 ↔ e'.1 ≤ o'.1 := by
      have hlt := h.ordered _ _ _ _ ho.1 he.1
      rw [← Nat.not_lt, ← Nat.not_lt, hlt]
    simp only [hle]
  · rw [List.forall₂_map_left_iff, List.forall₂_map_right_iff]
    refine List.forall₂_same.mpr fun slot _ => ?_
    rw [List.forall₂_map_left_iff, List.forall₂_map_right_iff]
    exact (filter_of_forall₂ hslots fun _ _ hentry => by rw [hentry.2]).imp
      fun _ _ hentry => hentry.1

end Graph

end Bytewise

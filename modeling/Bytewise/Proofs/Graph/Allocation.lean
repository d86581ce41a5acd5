/-
What an allocation of slots promises.

Slots are given one span at a time, so all that is said of them goes by
induction over the order of the spans: the spans that have got one are the
first of that order, and no slot is skipped, since the least free number
has every smaller one in use among the spans that overlap (`Dense`). Which
spans get a slot, and that none gets two, is settled before: the started
spans are ascending, and putting them in order of name only permutes them.
-/
import Mathlib.Data.List.Permutation
import Bytewise.Proofs.Graph.Slots

namespace Bytewise

namespace Graph

variable {g : Graph} {root : NodeId} {spans : OpenSpans} {s t : SpanId}

-- ====================================================== started spans

/-- Putting the spans of nodes to a set keeps it ascending, and adds what the
nodes start. -/
private theorem foldl_started (nodes : List NodeId) (set : SpanSet)
    (hset : set.Pairwise (· < ·)) :
    let all := nodes.foldl (fun spans id =>
      match (g.node id).kind with
      | .spanStart span => SpanSet.insert span spans
      | _ => spans) set
    all.Pairwise (· < ·)
      ∧ ∀ x, x ∈ all ↔ x ∈ set ∨ ∃ id ∈ nodes, (g.node id).kind
          = .spanStart x := by
  induction nodes generalizing set with
  | nil => simp [hset]
  | cons id nodes ih =>
      rw [List.foldl_cons]
      cases hkind : (g.node id).kind with
      | spanStart span =>
          obtain ⟨hsorted, hmem⟩ := ih (SpanSet.insert span set)
            (pairwise_insert hset)
          refine ⟨hsorted, fun x => ?_⟩
          rw [hmem x, mem_insert, List.exists_mem_cons_iff, hkind,
            NodeKind.spanStart.injEq,
            eq_comm (a := x), or_comm (a := span = x), or_assoc]
      | _ =>
          obtain ⟨hsorted, hmem⟩ := ih set hset
          refine ⟨hsorted, fun x => ?_⟩
          simp [hmem x, hkind]

/-- Started spans are listed in ascending order. -/
theorem pairwise_startedSpans : (g.startedSpans root).Pairwise (· < ·) :=
  (foldl_started (g.reachable root) [] .nil).1

/-- A span is listed if some node that is reached starts it. -/
theorem Sound.mem_startedSpans (hg : g.Sound) :
    s ∈ g.startedSpans root ↔ ∃ id, g.Reaches root id
        ∧ (g.node id).kind = .spanStart s := by
  refine ((foldl_started (g.reachable root) [] .nil).2 s).trans ?_
  simp only [List.not_mem_nil, false_or, hg.mem_reachable]

/-- The order of slots is one of the same spans. -/
theorem slotOrder_perm (set : SpanSet) : (g.slotOrder set).Perm set :=
  List.mergeSort_perm _ _

/-- Spans get their slots by name. -/
theorem pairwise_slotOrder (set : SpanSet) :
    (g.slotOrder set).Pairwise fun s t => g.spanName s ≤ g.spanName t := by
  refine (List.pairwise_mergeSort (fun a b c hab hbc => ?_)
    (fun a b => ?_) set).imp ?_
  · simp only [Bool.or_eq_true, Bool.and_eq_true, decide_eq_true_eq,
      beq_iff_eq] at hab hbc ⊢
    rcases hab with hab | ⟨hab, hle⟩
    · rcases hbc with hbc | ⟨hbc, _⟩
      · exact Or.inl (String.lt_trans hab hbc)
      · exact Or.inl (hbc ▸ hab)
    · rw [hab]
      exact hbc.imp id fun h => ⟨h.1, Nat.le_trans hle h.2⟩
  · simp only [Bool.or_eq_true, Bool.and_eq_true, decide_eq_true_eq,
      beq_iff_eq]
    by_cases hab : g.spanName a < g.spanName b
    · exact Or.inl (Or.inl hab)
    · by_cases hba : g.spanName b < g.spanName a
      · exact Or.inr (Or.inl hba)
      · have heq := String.le_antisymm (String.not_lt.mp hba)
          (String.not_lt.mp hab)
        exact (Nat.le_total a b).imp (fun hle => Or.inr ⟨heq, hle⟩) fun hle =>
          Or.inr ⟨heq.symm, hle⟩
  · intro a b h
    simp only [Bool.or_eq_true, Bool.and_eq_true, decide_eq_true_eq,
      beq_iff_eq] at h
    rcases h with h | ⟨h, _⟩
    · exact (String.le_total _ _).resolve_right fun hle =>
        String.not_lt.mpr hle h
    · exact h ▸ String.not_lt.mp (String.lt_irrefl _)

-- =========================================================== the slots

/-- The spans get their slots in their order. -/
theorem map_assignSlots (order : List SpanId) (slots : List (SpanId × Nat)) :
    (assignSlots spans order slots).map (·.1) = slots.map (·.1) ++ order := by
  induction order generalizing slots with
  | nil => simp [assignSlots]
  | cons span order ih =>
      unfold assignSlots
      rw [ih]
      simp

/-- Every number below the least free one is in use. -/
theorem mem_of_lt_leastFree {used : List Nat} {n : Nat}
    (h : n < leastFree used) : n ∈ used := by
  unfold leastFree at h
  cases hfind : (List.range (used.length + 1)).find? (!used.contains ·) with
  | none =>
      rw [hfind] at h
      exact absurd h (Nat.not_lt_zero n)
  | some free =>
      rw [hfind, Option.getD_some] at h
      obtain ⟨_, i, hi, rfl, hbefore⟩ :=
        List.find?_eq_some_iff_getElem.mp hfind
      have hused := hbefore n (by simpa using h)
      simpa using hused

/-- No slot is skipped. -/
def Dense (slots : List (SpanId × Nat)) : Prop :=
  ∀ x ∈ slots, ∀ n < x.2, ∃ y ∈ slots, y.2 = n

/-- One more span leaves no gap between slots. -/
theorem Dense.add {slots : List (SpanId × Nat)} (h : Dense slots)
    (span : SpanId) :
    Dense (slots ++ [(span, leastFree
      ((slots.filter fun entry => overlap spans span entry.1).map
          (·.2)))]) := by
  intro x hx n hn
  rcases List.mem_append.mp hx with hx | hx
  · obtain ⟨y, hy, hyn⟩ := h x hx n hn
    exact ⟨y, List.mem_append_left _ hy, hyn⟩
  · rw [List.mem_singleton.mp hx] at hn
    obtain ⟨y, hy, hyn⟩ := List.mem_map.mp (mem_of_lt_leastFree hn)
    exact ⟨y, List.mem_append_left _ (List.mem_filter.mp hy).1, hyn⟩

theorem Dense.assign {order : List SpanId} {slots : List (SpanId × Nat)}
    (h : Dense slots) :
    Dense (assignSlots spans order slots) := by
  induction order generalizing slots with
  | nil => exact h
  | cons span order ih => exact ih (h.add span)

/-- Looking a span up among slots put in order of span finds the slot that it
got, if no span got two. -/
theorem lookup_mergeSort {slots : List (SpanId × Nat)}
    (hnodup : (slots.map (·.1)).Nodup) {slot : Nat} :
    (slots.mergeSort fun a b => a.1 ≤ b.1).lookup s = some slot
        ↔ (s, slot) ∈ slots := by
  have hperm := List.mergeSort_perm slots fun a b => a.1 ≤ b.1
  rw [List.lookup_eq_some_iff, ← hperm.mem_iff]
  constructor
  · rintro ⟨front, back, happend, _⟩
    simp [happend]
  · intro hmem
    obtain ⟨front, back, happend⟩ := List.append_of_mem hmem
    refine ⟨front, back, happend, fun x hx => ?_⟩
    have hkeys := ((hperm.map (·.1)).nodup_iff).mpr hnodup
    rw [happend, List.map_append, List.map_cons] at hkeys
    have hne := (List.nodup_append.mp hkeys).2.2 x.1 (List.mem_map_of_mem hx) s
      List.mem_cons_self
    simpa using hne.symm

/-- Sorted by spans, slots are listed in ascending order. -/
theorem ascending_mergeSort {slots : List (SpanId × Nat)}
    (hnodup : (slots.map (·.1)).Nodup) :
    ((slots.mergeSort fun a b => a.1 ≤ b.1).map (·.1)).Pairwise (· < ·) := by
  have hsorted :=
    @List.pairwise_mergeSort _ (fun a b : SpanId × Nat => decide (a.1 ≤ b.1))
    (fun a b c hab hbc => by
      rw [decide_eq_true_eq] at hab hbc ⊢
      exact hab.trans hbc)
    (fun a b => by
      rw [Bool.or_eq_true, decide_eq_true_eq, decide_eq_true_eq]
      exact Nat.le_total a.1 b.1) slots
  have hdistinct :=
    (((List.mergeSort_perm slots fun a b => a.1 ≤ b.1).map
      (·.1)).nodup_iff).mpr
    hnodup
  refine List.pairwise_map.mpr
    ((hsorted.and (List.pairwise_map.mp hdistinct)).imp ?_)
  rintro a b ⟨hle, hne⟩
  exact Nat.lt_of_le_of_ne (of_decide_eq_true hle) hne

-- ======================================================= the allocation

/-- A span that is open somewhere is started somewhere. -/
theorem Carries.started {id : NodeId} (h : g.Carries root id s) :
    ∃ start, g.Reaches root start ∧ (g.node start).kind = .spanStart s :=
  h.induction (P := fun _ => ∃ start, g.Reaches root start
    ∧ (g.node start).kind = .spanStart s)
    (fun a ha hkind => ⟨a, ha, hkind⟩) fun _ _ _ hstart _ _ => hstart

/-- The slots in use are those up to the last. -/
theorem Dense.used {slots : List (SpanId × Nat)} (h : Dense slots)
    (slot : Nat) :
    (∃ s, (s, slot) ∈ slots) ↔ ∃ last, (slots.map (·.2)).max? = some last
        ∧ slot ≤ last := by
  constructor
  · rintro ⟨s, hs⟩
    have hmem : slot ∈ slots.map (·.2) := List.mem_map_of_mem hs
    obtain ⟨last, hlast⟩ := Option.isSome_iff_exists.mp
      (List.isSome_max?_of_ne_nil (List.ne_nil_of_mem hmem))
    exact ⟨last, hlast, (List.max?_eq_some_iff.mp hlast).2 slot hmem⟩
  · rintro ⟨last, hlast, hle⟩
    obtain ⟨x, hx, rfl⟩ := List.mem_map.mp (List.max?_eq_some_iff.mp hlast).1
    rcases Nat.lt_or_eq_of_le hle with hlt | rfl
    · obtain ⟨y, hy, rfl⟩ := h x hx slot hlt
      exact ⟨y.1, hy⟩
    · exact ⟨x.1, hx⟩

/-- The spans that got one slot, in the order in which they got it. -/
private abbrev ofSlot (slots : List (SpanId × Nat)) (slot : Nat) :
    List SpanId :=
  (slots.filter fun entry => entry.2 == slot).map (·.1)

/-- The spans of a slot are those that were given it. -/
private theorem mem_ofSlot {slots : List (SpanId × Nat)} {slot : Nat} :
    s ∈ ofSlot slots slot ↔ (s, slot) ∈ slots := by
  simp [ofSlot]

/-- They stand in the order of all spans. -/
private theorem ofSlot_sublist (slots : List (SpanId × Nat)) (slot : Nat) :
    (ofSlot slots slot).Sublist (slots.map (·.1)) :=
  List.filter_sublist.map _

/-- If the count covers the slots in use, a span is listed in its slot and in
no other. -/
private theorem listed_ofSlot {slots : List (SpanId × Nat)} {count slot : Nat}
    (hcount : (s, slot) ∈ slots → slot < count) :
    (s, slot) ∈ slots
      ↔ ∃ group, ((List.range count).map (ofSlot slots))[slot]? = some group
          ∧ s ∈ group := by
  simp only [List.getElem?_map, Option.map_eq_some_iff,
    List.getElem?_eq_some_iff,
    List.getElem_range, List.length_range]
  constructor
  · intro hmem
    exact ⟨_, ⟨slot, ⟨hcount hmem, rfl⟩, rfl⟩, mem_ofSlot.mpr hmem⟩
  · rintro ⟨_, ⟨_, ⟨_, rfl⟩, rfl⟩, hmem⟩
    exact mem_ofSlot.mp hmem

/-- No span is listed in two slots, or twice in one. -/
private theorem nodup_ofSlot {slots : List (SpanId × Nat)}
    (h : (slots.map (·.1)).Nodup)
    (count : Nat) : ((List.range count).map (ofSlot slots)).flatten.Nodup := by
  refine List.nodup_flatten.mpr
    ⟨fun group hgroup => ?_, List.pairwise_map.mpr ?_⟩
  · obtain ⟨slot, _, rfl⟩ := List.mem_map.mp hgroup
    exact h.sublist (ofSlot_sublist slots slot)
  · refine List.nodup_range.imp fun {m n} hne s hm hn => hne ?_
    exact congrArg Prod.snd
      (List.inj_on_of_nodup_map h (mem_ofSlot.mp hm) (mem_ofSlot.mp hn) rfl)

/-- How an allocation is made: the started spans have slots without a gap, kept
by span, and listed slot by slot. -/
theorem slots_of_ok {allocation : SpanAllocation}
    (hok : g.allocateSpans root = .ok allocation) :
    ∃ slots count, slots.map (·.1) = g.slotOrder (g.startedSpans root)
      ∧ Dense slots
      ∧ (∀ slot, slot < count ↔ ∃ s, (s, slot) ∈ slots)
      ∧ allocation = {
          slots := slots.mergeSort fun a b => a.1 ≤ b.1
          sharing := (List.range count).map (ofSlot slots)
          last := (slots.map (·.2)).max? } := by
  obtain ⟨spans, _, hrest⟩ := ok_of_bind hok
  obtain ⟨⟨⟩, _, hslots⟩ := ok_of_bind hrest
  have hdense : Dense
      (assignSlots spans (g.slotOrder (g.startedSpans root)) []) :=
    Dense.assign fun _ hx => nomatch hx
  have hkeys : (assignSlots spans (g.slotOrder (g.startedSpans root)) []).map
      (·.1)
      = g.slotOrder (g.startedSpans root) := map_assignSlots _ []
  generalize assignSlots spans (g.slotOrder (g.startedSpans root)) [] = slots
    at hslots hdense hkeys
  refine ⟨slots, _, hkeys, hdense, fun slot => ?_, (Except.ok.inj hslots).symm⟩
  refine Iff.trans ?_ (hdense.used slot).symm
  cases (slots.map (·.2)).max? with
  | none => simp
  | some last =>
      simp only [Option.some.injEq, exists_eq_left', Nat.lt_succ_iff]

theorem nodup_of_started {slots : List (SpanId × Nat)}
    (h : slots.map (·.1) = g.slotOrder (g.startedSpans root)) :
    (slots.map (·.1)).Nodup := by
  rw [h, (slotOrder_perm _).nodup_iff]
  exact pairwise_startedSpans.imp Nat.ne_of_lt

/-- The spans that can be started have a slot, and no others. -/
theorem Sound.exists_slot (hg : g.Sound) {allocation : SpanAllocation}
    (hok : g.allocateSpans root = .ok allocation) :
    (∃ slot, allocation.slot? s = some slot)
      ↔ ∃ id, g.Reaches root id ∧ (g.node id).kind = .spanStart s := by
  obtain ⟨slots, count, hkeys, _, _, rfl⟩ := slots_of_ok hok
  rw [← hg.mem_startedSpans, ← (slotOrder_perm (g := g) _).mem_iff, ← hkeys]
  simp only [SpanAllocation.slot?, lookup_mergeSort (nodup_of_started hkeys),
    List.mem_map, Prod.exists, exists_eq_right, exists_and_right]

/-- The spans that are listed can be started. -/
theorem Sound.started_of_listed (hg : g.Sound) {allocation : SpanAllocation}
    (hok : g.allocateSpans root = .ok allocation) {group : List SpanId}
    (hgroup : group ∈ allocation.sharing) (hs : s ∈ group) :
    ∃ id, g.Reaches root id ∧ (g.node id).kind = .spanStart s := by
  have hstarted := hg.exists_slot (s := s) hok
  obtain ⟨slots, count, hkeys, _, _, rfl⟩ := slots_of_ok hok
  obtain ⟨slot, _, rfl⟩ := List.mem_map.mp hgroup
  exact hstarted.mp
    ⟨slot, (lookup_mergeSort (nodup_of_started hkeys)).mpr (mem_ofSlot.mp hs)⟩

/-- What a graph with `root` can rely on in an allocation. -/
structure Allocates (g : Graph) (root : NodeId) (allocation : SpanAllocation) :
    Prop where
  /-- Two spans that are open at one point of a path, before a node or behind
  it, have slots of their own. -/
  apart : ∀ id before, g.Arrives root id before → ∀ s t, s ≠ t →
    (s ∈ before ∧ t ∈ before)
    ∨ (s ∈ g.openAfter id before ∧ t ∈ g.openAfter id before) →
    ∃ m n, allocation.slot? s = some m ∧ allocation.slot? t = some n ∧ m ≠ n
  /-- The slots are kept by span. -/
  ascending : (allocation.slots.map (·.1)).Pairwise (· < ·)
  /-- The spans that can be started have a slot, and no others. -/
  started : ∀ s, (∃ slot, allocation.slot? s = some slot)
    ↔ ∃ id, g.Reaches root id ∧ (g.node id).kind = .spanStart s
  /-- The slots that spans have go up to the last without a gap. -/
  dense : ∀ slot, (∃ s, allocation.slot? s = some slot)
    ↔ ∃ last, allocation.last = some last ∧ slot ≤ last
  /-- A span is listed in its slot, and nowhere else. -/
  listed : ∀ s slot, allocation.slot? s = some slot
    ↔ ∃ group, allocation.sharing[slot]? = some group ∧ s ∈ group
  /-- Every listed slot has a span. -/
  filled : ∀ group ∈ allocation.sharing, group ≠ []
  /-- No span is listed twice. -/
  once : allocation.sharing.flatten.Nodup
  /-- The spans of a slot are listed by name. -/
  named : ∀ group ∈ allocation.sharing,
    group.Pairwise fun s t => g.spanName s ≤ g.spanName t

/-- In an accepted graph no two spans that are open together share a slot, and
slots are given to the started spans only, without a gap. -/
theorem allocates_of_ok (hg : g.Built) {allocation : SpanAllocation}
    (hok : g.allocateSpans root = .ok allocation) :
    g.Allocates root allocation := by
  have hslots := hg.sound.slotsAllocated hok
  have hstarted := fun s => hg.sound.exists_slot (s := s) hok
  obtain ⟨slots, count, hkeys, hdense, hcount, rfl⟩ := slots_of_ok hok
  have hnodup := nodup_of_started hkeys
  have hlookup : ∀ s slot, (slots.mergeSort fun a b => a.1 ≤ b.1).lookup s
      = some slot ↔ (s, slot) ∈ slots := fun s slot => lookup_mergeSort hnodup
  refine {
    apart := fun id before hpath s t hne hopen => ?_
    ascending := ascending_mergeSort hnodup
    started := hstarted
    dense := fun slot => (exists_congr fun s => hlookup s slot).trans
      (hdense.used slot)
    listed := fun s slot => (hlookup s slot).trans
      (listed_ofSlot fun hmem => (hcount slot).mpr ⟨s, hmem⟩)
    filled := fun group hgroup => ?_
    once := nodup_ofSlot hnodup count
    named := fun group hgroup => ?_ }
  · -- what is open on either side of a node is carried to it
    obtain ⟨hs, ht⟩ : g.Carries root id s ∧ g.Carries root id t := by
      rcases hopen with ⟨hs, ht⟩ | ⟨hs, ht⟩
      · exact ⟨⟨before, hpath, Or.inl hs⟩, ⟨before, hpath, Or.inl ht⟩⟩
      · exact ⟨(hpath.carries hs).1, (hpath.carries ht).1⟩
    obtain ⟨m, hm⟩ := (hstarted s).mpr hs.started
    obtain ⟨n, hn⟩ := (hstarted t).mpr ht.started
    refine ⟨m, n, hm, hn, ?_⟩
    rintro rfl
    exact hne (hslots.apart id s t m hs ht hm hn)
  · obtain ⟨slot, hslot, rfl⟩ := List.mem_map.mp hgroup
    obtain ⟨s, hs⟩ := (hcount slot).mp (List.mem_range.mp hslot)
    exact List.ne_nil_of_mem (mem_ofSlot.mpr hs)
  · obtain ⟨slot, _, rfl⟩ := List.mem_map.mp hgroup
    have hsorted := pairwise_slotOrder (g := g) (g.startedSpans root)
    rw [← hkeys] at hsorted
    exact hsorted.sublist (ofSlot_sublist slots slot)

/-- One span opens inside another, and a third after both are closed. -/
def nested : Graph :=
  Build.replay [.externalCode "on_url" .span, .externalCode "on_host" .span,
    .externalCode "on_body" .span, .span 0, .span 1, .span 2, .node "url",
      .node "host",
    .node "body", .error 1 "done", .spanStart 0 (some 0),
      .spanStart 1 (some 1),
    .spanEnd 0 (some 3), .spanStart 2 (some 2), .spanEnd 0 (some 7),
      .spanEnd 1 (some 8),
    .spanEnd 2 (some 3), .matchKey 0 [0x61] 5, .skipTo 0 0,
      .matchKey 1 [0x62] 9, .skipTo 1 1,
    .matchKey 2 [0x63] 10, .skipTo 2 2] {}

/-- The graph is one that calls of the builder make. -/
theorem built_nested : nested.Built :=
  Built.new.replay (by decide)

/-- The third span shares a slot with the inner one, which is the second by
name. -/
def nestedSlots : SpanAllocation :=
  ⟨[(0, 1), (1, 0), (2, 0)], [[2, 1], [0]], some 1⟩

theorem allocateSpans_nested : nested.allocateSpans 4 = .ok nestedSlots := by
  have hopen : nested.openSpans 4
      = .ok #[[0], [0, 1], [2], [], [0], [0, 1], [], [2], [0], [0, 1],
        [2]] := by decide +kernel
  have hends : nested.checkSpanEnds 4
      #[[0], [0, 1], [2], [], [0], [0, 1], [], [2], [0], [0, 1], [2]]
        = .ok () := by decide +kernel
  have hstarted : nested.startedSpans 4 = [0, 1, 2] := by decide +kernel
  have horder : nested.slotOrder [0, 1, 2] = [2, 1, 0] := by
    have hurl : nested.spanName 0 = "on_url" := by decide +kernel
    have hhost : nested.spanName 1 = "on_host" := by decide +kernel
    have hbody : nested.spanName 2 = "on_body" := by decide +kernel
    simp only [slotOrder, List.mergeSort, List.length_cons, List.length_nil,
      Nat.reduceAdd, Nat.reduceDiv, List.MergeSort.Internal.splitInTwo_fst,
        List.take_succ_cons, List.take_zero,
      List.mergeSort_singleton, List.MergeSort.Internal.splitInTwo_snd,
        List.drop_succ_cons,
      List.drop_zero, hurl, hhost, hbody, String.reduceLT, String.reduceBEq,
        Nat.reduceLeDiff,
      Nat.zero_le, decide_false, decide_true, Bool.and_true, Bool.or_self,
        Bool.false_eq_true,
      not_false_eq_true, List.cons_merge_cons_neg, List.merge_right]
  unfold allocateSpans
  rw [hopen]
  show (nested.checkSpanEnds 4 _ >>= _) = _
  rw [hends, hstarted, horder]
  cbv

/-- Behind the start of the inner span both it and the outer one are open. -/
theorem nested_apart : nested.allocateSpans 4 = .ok nestedSlots
    ∧ ∃ m n, nestedSlots.slot? 0 = some m ∧ nestedSlots.slot? 1 = some n
        ∧ m ≠ n := by
  refine ⟨allocateSpans_nested, ?_⟩
  have hurl : (nested.node 4).kind = .spanStart 0 := by decide +kernel
  have hmatch : (nested.node 0).kind = .dispatch none := by decide +kernel
  have hhost : (nested.node 5).kind = .spanStart 1 := by decide +kernel
  have hfirst : nested.Leads 4 0 := show 0 ∈ (nested.node 4).targets by
    decide +kernel
  have hinner : nested.Leads 0 5 := show 5 ∈ (nested.node 0).targets by
    decide +kernel
  have hpath := (Arrives.root.step hfirst).step hinner
  refine (allocates_of_ok built_nested allocateSpans_nested).apart 5 _ hpath 0
    1 (by decide) (Or.inr ⟨?_, ?_⟩)
  · simp [openAfter, hurl, hmatch, hhost]
  · simp [openAfter, hhost]

end Graph

end Bytewise

/-
Which spans are open where.

`Arrives` follows one path and the set of spans open along it. `Carries`
forgets the path: at this node, some path has this span open. The analysis
computes `Carries` exactly (`activity_openSpans`): every member is carried
there by a path, and what a path carries is passed along each of its
edges, since a node whose members grow waits again, and every wait is paid
for by a span some node did not have. This does not ask which of the
waiting nodes has its turn first (`Turn`); the analysis takes them as they
come (`Tracking.spreads`).
-/
import Mathlib.Data.Set.Insert
import Bytewise.Graph.Spans
import Bytewise.Proofs.Except
import Bytewise.Proofs.List
import Bytewise.Proofs.Graph.Reach

namespace Bytewise

namespace Graph

-- ============================================================= paths

/-- The spans open behind the node `id`, if `before` are open on the way into
it. -/
def openAfter (g : Graph) (id : NodeId) (before : Set SpanId) : Set SpanId :=
  match (g.node id).kind with
  | .spanStart span => insert span before
  | .spanEnd span => before \ {span}
  | _ => before

/-- Some path from `root` arrives at a node with these spans open. -/
inductive Arrives (g : Graph) (root : NodeId) :
    NodeId → Set SpanId → Prop where
  | root : Arrives g root root ∅
  | step {a b : NodeId} {before : Set SpanId} (path : Arrives g root a before)
      (leads : g.Leads a b) : Arrives g root b (g.openAfter a before)

/-- On some path from `root` the span is open at the node, or opened there. -/
def Carries (g : Graph) (root id : NodeId) (span : SpanId) : Prop :=
  ∃ before, g.Arrives root id before
    ∧ (span ∈ before ∨ (g.node id).kind = .spanStart span)

variable {g : Graph} {root a b : NodeId} {span : SpanId}

/-- Where a span arrives, a path does. -/
theorem Arrives.reaches {before : Set SpanId} (h : g.Arrives root a before) :
    g.Reaches root a := by
  induction h with
  | root => exact .refl
  | step _ leads ih => exact ih.step leads

/-- Every path arrives with some spans open. -/
theorem Reaches.arrives (h : g.Reaches root a) :
    ∃ before, g.Arrives root a before := by
  induction h with
  | refl => exact ⟨∅, .root⟩
  | tail _ leads ih =>
      obtain ⟨before, hpath⟩ := ih
      exact ⟨_, hpath.step leads⟩

/-- Behind a node are open: what it opens, and what was open and it does not
close. -/
theorem mem_openAfter {before : Set SpanId} :
    span ∈ g.openAfter a before
      ↔ (span ∈ before ∨ (g.node a).kind = .spanStart span)
          ∧ (g.node a).kind ≠ .spanEnd span := by
  unfold openAfter
  cases hkind : (g.node a).kind with
  | spanStart s =>
      rw [Set.mem_insert_iff]
      constructor
      · intro hmem
        rcases hmem with rfl | h
        · exact ⟨Or.inr rfl, fun h => nomatch h⟩
        · exact ⟨Or.inl h, fun h => nomatch h⟩
      · intro hmem
        obtain ⟨h | h, _⟩ := hmem
        · exact Or.inr h
        · cases h
          exact Or.inl rfl
  | spanEnd s =>
      rw [Set.mem_sdiff, Set.mem_singleton_iff]
      constructor
      · intro hmem
        obtain ⟨h, hne⟩ := hmem
        exact ⟨Or.inl h, fun heq => hne (NodeKind.spanEnd.inj heq).symm⟩
      · intro hmem
        obtain ⟨h | h, hne⟩ := hmem
        · exact ⟨h, fun heq => hne (by rw [heq])⟩
        · cases h
  | dispatch t => simp
  | error code reason => simp
  | pause code reason => simp
  | consume field => simp
  | invoke code => simp

theorem carries_start (h : g.Reaches root a)
    (hkind : (g.node a).kind = .spanStart span) :
    g.Carries root a span := by
  obtain ⟨before, hpath⟩ := h.arrives
  exact ⟨before, hpath, Or.inr hkind⟩

theorem Carries.reaches (h : g.Carries root a span) : g.Reaches root a := by
  obtain ⟨before, hpath, _⟩ := h
  exact hpath.reaches

/-- A span that is not closed is carried along edges. -/
theorem Carries.step (h : g.Carries root a span)
    (hend : (g.node a).kind ≠ .spanEnd span)
    (leads : g.Leads a b) : g.Carries root b span := by
  obtain ⟨before, hpath, hopen⟩ := h
  exact ⟨_, hpath.step leads, Or.inl (mem_openAfter.mpr ⟨hopen, hend⟩)⟩

/-- What is open behind a node on some path was carried there, and the node
does not close it. -/
theorem Arrives.carries {before : Set SpanId} (h : g.Arrives root a before)
    (hopen : span ∈ g.openAfter a before) :
    g.Carries root a span ∧ (g.node a).kind ≠ .spanEnd span := by
  obtain ⟨hmem, hend⟩ := mem_openAfter.mp hopen
  exact ⟨⟨before, h, hmem⟩, hend⟩

/-- Whatever starting nodes have and edges keep, holds wherever a span is
carried. -/
theorem Carries.induction {P : NodeId → Prop}
    (start : ∀ a, g.Reaches root a → (g.node a).kind = .spanStart span → P a)
    (step : ∀ a b, g.Carries root a span → P a →
      (g.node a).kind ≠ .spanEnd span → g.Leads a b →
      P b) (h : g.Carries root a span) : P a := by
  obtain ⟨before, hpath, hopen⟩ := h
  induction hpath with
  | root =>
      rcases hopen with hopen | hkind
      · exact absurd hopen (Set.notMem_empty _)
      · exact start root .refl hkind
  | @step a b before hpath leads ih =>
      rcases hopen with hopen | hkind
      · obtain ⟨hmem, hend⟩ := mem_openAfter.mp hopen
        exact step a b ⟨before, hpath, hmem⟩ (ih hmem) hend leads
      · exact start b (hpath.reaches.step leads) hkind

/-- A carried span is a span of the graph. -/
theorem Carries.span_lt (hg : g.Sound) (h : g.Carries root a span) :
    span < g.spans.size := by
  refine h.induction (P := fun _ => span < g.spans.size) (fun a _ hkind => ?_)
    (fun _ _ _ hlt _ _ => hlt)
  rcases Nat.lt_or_ge a g.size with hlt | hge
  · have hfits := (hg.nodes a hlt).kind
    rw [hkind] at hfits
    exact hfits
  · rw [node_of_ge hge] at hkind
    cases hkind

-- =========================================================== analysis

/-- Inserting a span adds it and no other. -/
theorem mem_insert {x : SpanId} {spans : SpanSet} :
    x ∈ SpanSet.insert span spans ↔ x = span ∨ x ∈ spans := by
  induction spans with
  | nil => simp [SpanSet.insert]
  | cons s rest ih =>
      unfold SpanSet.insert
      split
      · exact List.mem_cons
      · split
        · rename_i heq
          rw [beq_iff_eq.mp heq, List.mem_cons, or_self_left]
        · rw [List.mem_cons, List.mem_cons, ih, or_left_comm]

/-- A set stays ascending. -/
theorem pairwise_insert {set : SpanSet} {s : SpanId}
    (h : set.Pairwise (· < ·)) :
    (SpanSet.insert s set).Pairwise (· < ·) := by
  induction set with
  | nil => simp [SpanSet.insert]
  | cons first rest ih =>
      obtain ⟨hfirst, hrest⟩ := List.pairwise_cons.mp h
      unfold SpanSet.insert
      split
      · rename_i hlt
        refine List.pairwise_cons.mpr ⟨fun x hx => ?_, h⟩
        rcases List.mem_cons.mp hx with rfl | hx
        · exact hlt
        · exact hlt.trans (hfirst x hx)
      · rename_i hge
        split
        · exact h
        · rename_i hne
          have hne : s ≠ first := by simpa using hne
          refine List.pairwise_cons.mpr ⟨fun x hx => ?_, ih hrest⟩
          rcases mem_insert.mp hx with rfl | hx
          · exact Nat.lt_of_le_of_ne (Nat.le_of_not_lt hge) hne.symm
          · exact hfirst x hx

/-- The analysis has found the span at the node. -/
def OpenSpans.Has (spans : OpenSpans) (id : NodeId) (span : SpanId) : Prop :=
  span ∈ spans.getD id []

/-- How many of the first `count` spans are missing at the nodes, all
together. -/
def OpenSpans.missing (count : Nat) (spans : OpenSpans) : Nat :=
  (spans.toList.map fun here => (List.range count).countP
    (!here.contains ·)).sum

/-- No more is missing than every span at every node. -/
theorem OpenSpans.missing_le (count : Nat) (spans : OpenSpans) :
    spans.missing count ≤ count * spans.size := by
  have :=
    sum_map_le
      (f := fun here : SpanSet => (List.range count).countP (!here.contains ·))
    (b := count)
      (fun here => by
        simpa using List.countP_le_length (l := List.range count))
    spans.toList
  rwa [Array.length_toList] at this

/-- The spans of the nodes after one was put to those of a node. -/
private theorem has_set_insert {spans : OpenSpans} {target : NodeId}
    (ht : target < spans.size) (id : NodeId) (x : SpanId) :
    OpenSpans.Has
      (spans.setIfInBounds target (SpanSet.insert span (spans.getD target [])))
      id x
      ↔ spans.Has id x ∨ (id = target ∧ x = span) := by
  unfold OpenSpans.Has
  by_cases hid : id = target
  · subst hid
    rw [show (spans.setIfInBounds id
      (SpanSet.insert span (spans.getD id []))).getD id []
      = SpanSet.insert span (spans.getD id []) by simp [ht], mem_insert]
    simp only [true_and, or_comm]
  · simp [hid, Ne.symm hid]

/-- Inserting a span makes none missing. -/
private theorem missing_set_insert {spans : OpenSpans} {target : NodeId}
    (count : Nat) (ht : target < spans.size) :
    OpenSpans.missing count
      (spans.setIfInBounds target (SpanSet.insert span (spans.getD target [])))
        ≤ spans.missing count := by
  have hget : spans.getD target [] = spans[target] := by simp [Array.getD, ht]
  unfold OpenSpans.missing
  rw [Array.toList_setIfInBounds]
  refine sum_map_set_le (by simpa using ht)
    (List.countP_mono_left fun x _ hx => ?_)
  rw [Array.getElem_toList, ← hget]
  rw [Bool.not_eq_true', Bool.eq_false_iff, ne_eq, List.contains_iff_mem]
    at hx ⊢
  exact fun hmem => hx (mem_insert.mpr (Or.inr hmem))

/-- A span that is new to a node is missing no more. -/
private theorem missing_set_insert_lt {spans : OpenSpans} {target : NodeId}
    {count : Nat} (ht : target < spans.size) (hspan : span < count)
    (hnew : ¬ spans.Has target span) :
    OpenSpans.missing count
      (spans.setIfInBounds target (SpanSet.insert span (spans.getD target [])))
        < spans.missing count := by
  have hget : spans.getD target [] = spans[target] := by simp [Array.getD, ht]
  unfold OpenSpans.missing
  rw [Array.toList_setIfInBounds]
  refine sum_map_set_lt (by simpa using ht)
    (countP_lt (fun x _ hx => ?_) (List.mem_range.mpr hspan) ?_ ?_)
  · rw [Array.getElem_toList, ← hget]
    rw [Bool.not_eq_true', Bool.eq_false_iff, ne_eq, List.contains_iff_mem]
      at hx ⊢
    exact fun hmem => hx (mem_insert.mpr (Or.inr hmem))
  · rw [Bool.not_eq_false', List.contains_iff_mem]
    exact mem_insert.mpr (Or.inl rfl)
  · rw [Array.getElem_toList, ← hget, Bool.not_eq_true',
      Bool.eq_false_iff, ne_eq,
      List.contains_iff_mem]
    exact hnew

/-- What passing spans does: nothing is lost, what a node gains is carried
there and makes it wait, and who waits is paid for by a span that was
missing. -/
structure SpansGrow (g : Graph) (root : NodeId)
    (before after : List NodeId × OpenSpans) :
    Prop where
  size : after.2.size = before.2.size
  paid : after.1.length + after.2.missing g.spans.size
    ≤ before.1.length + before.2.missing g.spans.size
  waiting : ∀ id ∈ before.1, id ∈ after.1
  joined : ∀ id ∈ after.1, id ∈ before.1 ∨ g.Reaches root id
  kept : ∀ id s, before.2.Has id s → after.2.Has id s
  fresh : ∀ id s, after.2.Has id s → before.2.Has id s
    ∨ (id ∈ after.1 ∧ g.Carries root id s)

theorem SpansGrow.refl (state : List NodeId × OpenSpans) :
    g.SpansGrow root state state where
  size := rfl
  paid := Nat.le_refl _
  waiting _ h := h
  joined _ h := Or.inl h
  kept _ _ h := h
  fresh _ _ h := Or.inl h

theorem SpansGrow.trans {a b c : List NodeId × OpenSpans}
    (hab : g.SpansGrow root a b)
    (hbc : g.SpansGrow root b c) : g.SpansGrow root a c where
  size := hbc.size.trans hab.size
  paid := Nat.le_trans hbc.paid hab.paid
  waiting id h := hbc.waiting id (hab.waiting id h)
  joined id h := (hbc.joined id h).elim (hab.joined id) Or.inr
  kept id s h := hbc.kept id s (hab.kept id s h)
  fresh id s h := by
    rcases hbc.fresh id s h with h | h
    · rcases hab.fresh id s h with h | ⟨hwait, hcarries⟩
      · exact Or.inl h
      · exact Or.inr ⟨hbc.waiting id hwait, hcarries⟩
    · exact Or.inr h

/-- A span that a node has already is passed on in vain. -/
private theorem passSpan_seen {id target : NodeId} {waiting : List NodeId}
    {spans : OpenSpans} (hkind : (g.node target).kind ≠ .spanStart span)
    (hseen : spans.Has target span) :
    g.passSpan id span (waiting, spans) target = .ok (waiting, spans) := by
  have hseen' : (spans.getD target []).contains span = true :=
    List.contains_iff_mem.mpr hseen
  unfold passSpan
  dsimp only
  rw [if_neg (mt beq_iff_eq.mp hkind), if_pos hseen']

private theorem passSpan_new {id target : NodeId} {waiting : List NodeId}
    {spans : OpenSpans} (hkind : (g.node target).kind ≠ .spanStart span)
    (hnew : ¬ spans.Has target span) :
    g.passSpan id span (waiting, spans) target
      = .ok (if waiting.contains target then waiting else waiting ++ [target],
          spans.setIfInBounds target
              (SpanSet.insert span (spans.getD target []))) := by
  have hnew' : ¬ (spans.getD target []).contains span = true :=
    mt List.contains_iff_mem.mp hnew
  unfold passSpan
  dsimp only
  rw [if_neg (mt beq_iff_eq.mp hkind), if_neg hnew']

/-- A span that is passed arrives; it may not be started where it arrives. -/
theorem passSpan_grows (hg : g.Sound) {id target : NodeId}
    {state state' : List NodeId × OpenSpans} (ht : target < state.2.size)
    (hcarries : g.Carries root target span)
    (hrun : g.passSpan id span state target = .ok state') :
    g.SpansGrow root state state'
      ∧ state'.2.Has target span ∧ (g.node target).kind ≠ .spanStart span := by
  obtain ⟨waiting, spans⟩ := state
  have ht : target < spans.size := ht
  by_cases hkind : (g.node target).kind = .spanStart span
  · unfold passSpan at hrun
    dsimp only at hrun
    rw [if_pos (beq_iff_eq.mpr hkind)] at hrun
    cases hrun
  · by_cases hseen : spans.Has target span
    · rw [passSpan_seen hkind hseen] at hrun
      obtain rfl := Except.ok.inj hrun
      exact ⟨SpansGrow.refl _, hseen, hkind⟩
    · rw [passSpan_new hkind hseen] at hrun
      obtain rfl := Except.ok.inj hrun
      have hmissing := missing_set_insert_lt ht (hcarries.span_lt hg) hseen
      have hlen : (if waiting.contains target then
          waiting else waiting ++ [target]).length
          ≤ waiting.length + 1 := by
        split
        · omega
        · rw [List.length_append, List.length_singleton]
      have hmem : target ∈ if waiting.contains target then
          waiting else waiting ++ [target] := by
        split
        · rename_i hwaits
          exact List.contains_iff_mem.mp hwaits
        · exact List.mem_append_right _ (List.mem_singleton.mpr rfl)
      refine ⟨?_, (has_set_insert ht target span).mpr (Or.inr ⟨rfl, rfl⟩),
        hkind⟩
      exact {
        size := Array.size_setIfInBounds
        paid := by
          refine Nat.le_trans (Nat.add_le_add_right hlen _) ?_
          show waiting.length + 1 + OpenSpans.missing g.spans.size
              (spans.setIfInBounds target
                (SpanSet.insert span (spans.getD target [])))
            ≤ waiting.length + spans.missing g.spans.size
          omega
        waiting := fun id hid => by
          dsimp only
          split
          · exact hid
          · exact List.mem_append_left _ hid
        joined := fun id hid => by
          dsimp only at hid
          split at hid
          · exact Or.inl hid
          · rcases List.mem_append.mp hid with hid | hid
            · exact Or.inl hid
            · rw [List.mem_singleton.mp hid]
              exact Or.inr hcarries.reaches
        kept := fun id s hid => (has_set_insert ht id s).mpr (Or.inl hid)
        fresh := fun id s hid => by
          rcases (has_set_insert ht id s).mp hid with hid | ⟨rfl, rfl⟩
          · exact Or.inl hid
          · exact Or.inr ⟨hmem, hcarries⟩ }

/-- The node has all that starts at it, and has passed on all that it has and
does not close. -/
structure Passed (g : Graph) (spans : OpenSpans) (id : NodeId) : Prop where
  started : ∀ span, (g.node id).kind = .spanStart span → spans.Has id span
  passed : ∀ span, spans.Has id span → (g.node id).kind ≠ .spanEnd span →
    ∀ target, g.Leads id target → spans.Has target span
      ∧ (g.node target).kind ≠ .spanStart span

/-- What has been found is carried, nodes that wait are reached, and reached
nodes that do not wait have passed on what they have. -/
structure Tracking (g : Graph) (root : NodeId)
    (state : List NodeId × OpenSpans) : Prop where
  size : state.2.size = g.size
  reached : ∀ id ∈ state.1, g.Reaches root id
  carried : ∀ id span, state.2.Has id span → g.Carries root id span
  settled : ∀ id, g.Reaches root id → id ∈ state.1 ∨ g.Passed state.2 id

/-- What is found at a node before it passes it on: what was found there, and
what it starts. -/
def startedHere (g : Graph) (id : NodeId) (spans : OpenSpans) : SpanSet :=
  match (g.node id).kind with
  | .spanStart span => SpanSet.insert span (spans.getD id [])
  | _ => spans.getD id []

/-- At a node are open the spans that arrive there, and the one it starts. -/
theorem mem_startedHere {id : NodeId} {spans : OpenSpans} :
    span ∈ startedHere g id spans
      ↔ spans.Has id span ∨ (g.node id).kind = .spanStart span := by
  unfold startedHere OpenSpans.Has
  cases hkind : (g.node id).kind with
  | spanStart s =>
      rw [mem_insert, or_comm]
      exact or_congr Iff.rfl
        ⟨fun h => by rw [h], fun h => (NodeKind.spanStart.inj h).symm⟩
  | _ => simp

/-- The first thing that passing does: a node gets the span it starts. -/
private theorem has_startHere {id : NodeId} {spans : OpenSpans}
    (hid : id < spans.size) (a : NodeId) (s : SpanId) :
    OpenSpans.Has (spans.setIfInBounds id (startedHere g id spans)) a s
      ↔ spans.Has a s ∨ (a = id ∧ (g.node id).kind = .spanStart s) := by
  by_cases ha : a = id
  · subst ha
    have hget : (spans.setIfInBounds a (startedHere g a spans)).getD a []
        = startedHere g a spans := by simp [hid]
    unfold OpenSpans.Has
    rw [hget, mem_startedHere]
    simp only [true_and]
    rfl
  · unfold OpenSpans.Has
    simp [ha, Ne.symm ha]

/-- Starting a span leaves no more missing. -/
private theorem missing_startHere {id : NodeId} {spans : OpenSpans}
    (count : Nat) (hid : id < spans.size) :
    OpenSpans.missing count (spans.setIfInBounds id (startedHere g id spans))
      ≤ spans.missing count := by
  have hget : spans.getD id [] = spans[id] := by simp [Array.getD, hid]
  have hsame : spans.setIfInBounds id (spans.getD id []) = spans := by
    rw [hget, Array.setIfInBounds, dif_pos hid, Array.set_getElem_self]
  unfold startedHere
  cases (g.node id).kind with
  | spanStart s => exact missing_set_insert count hid
  | _ =>
      dsimp only
      rw [hsame]

/-- Passing at a node that is there: what it starts is found at it, and the
rest is passed on. -/
theorem passSpans_eq {id : NodeId} {waiting : List NodeId}
    {spans : OpenSpans} :
    g.passSpans id (waiting, spans)
      = ((startedHere g id spans).filter fun span => (g.node id).kind
          != .spanEnd span).foldlM
          (fun state span => (g.node id).targets.foldlM
            (g.passSpan id span) state)
          (waiting, spans.setIfInBounds id (startedHere g id spans)) := rfl

/-- What passing at a node does, once what it starts is found at it: what the
node does not close arrives wherever it leads. -/
theorem passSpans_grows (hg : g.Sound) {id : NodeId} {waiting : List NodeId}
    {spans : OpenSpans} {state : List NodeId × OpenSpans}
    (hsize : spans.size = g.size)
    (hcarried : ∀ s ∈ startedHere g id spans, g.Carries root id s)
    (hrun : g.passSpans id (waiting, spans) = .ok state) :
    g.SpansGrow root (waiting, spans.setIfInBounds id (startedHere g id spans))
      state ∧ ∀ s ∈ startedHere g id spans, (g.node id).kind ≠ .spanEnd s →
        ∀ target, g.Leads id target →
          state.2.Has target s ∧ (g.node target).kind ≠ .spanStart s := by
  rw [passSpans_eq] at hrun
  -- over the spans, and for each span over the targets
  obtain ⟨hgrows, hall⟩ := foldlM_ok (R := g.SpansGrow root)
    (Q := fun span state => ∀ target, g.Leads id target →
      OpenSpans.Has state.2 target span
        ∧ (g.node target).kind ≠ .spanStart span)
    SpansGrow.refl SpansGrow.trans
    (fun hab hx target hleads =>
      ⟨hab.kept _ _ (hx target hleads).1, (hx target hleads).2⟩)
    (fun before after span hspan hbefore hspanRun => by
      obtain ⟨hmem, hend⟩ := List.mem_filter.mp hspan
      have hend : (g.node id).kind ≠ .spanEnd span := by simpa using hend
      exact foldlM_ok (R := g.SpansGrow root)
        (Q := fun target state =>
          OpenSpans.Has state.2 target span
            ∧ (g.node target).kind ≠ .spanStart span)
        SpansGrow.refl SpansGrow.trans
          (fun hab hx => ⟨hab.kept _ _ hx.1, hx.2⟩)
        (fun mid next target htarget hmid hpass => by
          refine passSpan_grows hg ?_ ((hcarried span hmem).step hend htarget)
            hpass
          rw [hmid.size, hbefore.size]
          show target < (spans.setIfInBounds id (startedHere g id spans)).size
          rw [Array.size_setIfInBounds, hsize]
          exact hg.target_lt htarget) hspanRun) hrun
  exact ⟨hgrows, fun s hs hend =>
    hall s (List.mem_filter.mpr ⟨hs, by simpa using hend⟩)⟩

/-- A node that gains nothing has passed on what it has. -/
theorem Passed.grows {id : NodeId} {spans later : OpenSpans}
    (h : g.Passed spans id) (hkept : ∀ a s, spans.Has a s → later.Has a s)
    (hold : ∀ s, later.Has id s → spans.Has id s) :
    g.Passed later id where
  started s hs := hkept id s (h.started s hs)
  passed s hs hend target hleads :=
    (h.passed s (hold s hs) hend target hleads).imp_left (hkept target s)

/-- A node of the graph that has its turn leaves less to do. -/
private theorem Tracking.pass_of_lt (hg : g.Sound) {id : NodeId}
    {waiting : List NodeId} {spans : OpenSpans}
    {state : List NodeId × OpenSpans}
    (h : g.Tracking root (id :: waiting, spans)) (hid : id < g.size)
    (hrun : g.passSpans id (waiting, spans) = .ok state) :
    g.Tracking root state
      ∧ state.1.length + state.2.missing g.spans.size
          ≤ waiting.length + spans.missing g.spans.size := by
  have hsize : spans.size = g.size := h.size
  have hid' : id < spans.size := hsize.symm ▸ hid
  have hcarried : ∀ s ∈ startedHere g id spans, g.Carries root id s := by
    intro s hs
    rcases mem_startedHere.mp hs with hs | hs
    · exact h.carried id s hs
    · exact carries_start (h.reached id List.mem_cons_self) hs
  obtain ⟨hgrows, hall⟩ := passSpans_grows hg hsize hcarried hrun
  have hkept : ∀ a s, spans.Has a s → state.2.Has a s := fun a s hs =>
    hgrows.kept a s ((has_startHere hid' a s).mpr (Or.inl hs))
  -- a node that does not wait has gained no more than what it starts
  have hold : ∀ a, a ∉ state.1 → ∀ s, state.2.Has a s →
      spans.Has a s ∨ (a = id ∧ (g.node id).kind = .spanStart s) :=
        fun a hwait s hs =>
    (has_startHere hid' a s).mp
      ((hgrows.fresh a s hs).resolve_right fun hnew => hwait hnew.1)
  refine ⟨{
    size := hgrows.size.trans (Array.size_setIfInBounds.trans hsize)
    reached := fun a ha =>
      (hgrows.joined a ha).elim
        (fun ha => h.reached a (List.mem_cons_of_mem id ha)) fun ha => ha
    carried := fun a s hs => ?_
    settled := fun a ha => ?_ }, ?_⟩
  · rcases hgrows.fresh a s hs with hs | ⟨-, hs⟩
    · rcases (has_startHere hid' a s).mp hs with hs | ⟨rfl, hs⟩
      · exact h.carried a s hs
      · exact hcarried s (mem_startedHere.mpr (Or.inr hs))
    · exact hs
  · by_cases hwait : a ∈ state.1
    · exact Or.inl hwait
    refine Or.inr ?_
    by_cases haid : a = id
    · subst haid
      exact {
        started :=
          fun s hs => hgrows.kept a s
            ((has_startHere hid' a s).mpr (Or.inr ⟨rfl, hs⟩))
        passed := fun s hs =>
          hall s
            (mem_startedHere.mpr ((hold a hwait s hs).imp_right And.right)) }
    · have hpassed : g.Passed spans a :=
        (h.settled a ha).resolve_left fun hwaits =>
        hwait (hgrows.waiting a ((List.mem_cons.mp hwaits).resolve_left haid))
      exact hpassed.grows hkept fun s hs => (hold a hwait s hs).resolve_right
          fun hnew =>
        haid hnew.1
  · have hpaid : _ ≤ waiting.length
        + OpenSpans.missing g.spans.size
            (spans.setIfInBounds id (startedHere g id spans)) :=
      hgrows.paid
    have hmissing := missing_startHere (g := g) g.spans.size hid'
    omega

/-- Outside the graph there is nothing to pass. -/
private theorem Tracking.pass_of_ge {id : NodeId} {waiting : List NodeId}
    {spans : OpenSpans} {state : List NodeId × OpenSpans}
    (h : g.Tracking root (id :: waiting, spans)) (hid : g.size ≤ id)
    (hrun : g.passSpans id (waiting, spans) = .ok state) :
    g.Tracking root state ∧ state = (waiting, spans) := by
  have hnode := node_of_ge hid
  have hout : spans.size ≤ id := h.size.symm ▸ hid
  have hnone : spans.getD id [] = [] := by
    simp [Array.getD, Nat.not_lt.mpr hout]
  have hhere : startedHere g id spans = [] := by
    unfold startedHere
    rw [hnode]
    exact hnone
  rw [passSpans_eq, hhere, Array.setIfInBounds_eq_of_size_le hout] at hrun
  obtain rfl := Except.ok.inj hrun
  have hpassed : g.Passed spans id := {
    started := fun s hs => by
      rw [hnode] at hs
      cases hs
    passed := fun s hs => by
      have hs : s ∈ spans.getD id [] := hs
      rw [hnone] at hs
      cases hs }
  refine ⟨⟨h.size, fun a ha => h.reached a (List.mem_cons_of_mem id ha),
    h.carried, fun a ha => ?_⟩, rfl⟩
  rcases h.settled a ha with hwaits | hpassed
  · rcases List.mem_cons.mp hwaits with rfl | hwaits
    · exact Or.inr hpassed
    · exact Or.inl hwaits
  · exact Or.inr hpassed

/-- A node that is passed keeps the analysis on its track, and who waits is
paid for. -/
theorem Tracking.pass (hg : g.Sound) {id : NodeId} {waiting : List NodeId}
    {spans : OpenSpans} {state : List NodeId × OpenSpans}
    (h : g.Tracking root (id :: waiting, spans))
    (hrun : g.passSpans id (waiting, spans) = .ok state) :
    g.Tracking root state
      ∧ state.1.length + state.2.missing g.spans.size
          ≤ waiting.length + spans.missing g.spans.size := by
  rcases Nat.lt_or_ge id g.size with hid | hid
  · exact h.pass_of_lt hg hid hrun
  · obtain ⟨htracking, rfl⟩ := h.pass_of_ge hid hrun
    exact ⟨htracking, Nat.le_refl _⟩

/-- A node that waits, wherever it stands among the others, has its turn. -/
inductive Turn (g : Graph) : List NodeId × OpenSpans → List NodeId
    × OpenSpans → Prop where
  | pass {id : NodeId} {before after : List NodeId} {spans : OpenSpans}
      {state : List NodeId × OpenSpans}
      (run : g.passSpans id (before ++ after, spans) = .ok state) :
      Turn g (before ++ id :: after, spans) state

/-- Turn after turn, until a node is refused its turn, or none waits. -/
inductive Spreads (g : Graph) : List NodeId × OpenSpans →
    Except Cause OpenSpans → Prop where
  | done (spans : OpenSpans) : Spreads g ([], spans) (.ok spans)
  | turn {state next : List NodeId × OpenSpans}
      {result : Except Cause OpenSpans}
      (first : g.Turn state next) (rest : Spreads g next result) : Spreads
        g state result
  | refused {id : NodeId} {before after : List NodeId} {spans : OpenSpans}
      {cause : Cause}
      (run : g.passSpans id (before ++ after, spans) = .error cause) :
      Spreads g (before ++ id :: after, spans) (.error cause)

/-- The order in which nodes wait is of no account. -/
theorem Tracking.toFront {id : NodeId} {before after : List NodeId}
    {spans : OpenSpans} (h : g.Tracking root (before ++ id :: after, spans)) :
    g.Tracking root (id :: (before ++ after), spans) where
  size := h.size
  reached a ha := h.reached a (List.perm_middle.mem_iff.mpr ha)
  carried := h.carried
  settled a ha := (h.settled a ha).imp_left List.perm_middle.mem_iff.mp

/-- A turn keeps the analysis on its track, and brings it nearer to its end. -/
theorem Tracking.turn (hg : g.Sound) {state next : List NodeId × OpenSpans}
    (h : g.Tracking root state) (hturn : g.Turn state next) :
    g.Tracking root next
      ∧ next.1.length + next.2.missing g.spans.size
          < state.1.length + state.2.missing g.spans.size := by
  cases hturn with
  | @pass id before after spans _ run =>
      obtain ⟨htrack, hpaid⟩ := h.toFront.pass hg run
      refine ⟨htrack, Nat.lt_of_le_of_lt hpaid ?_⟩
      simp only [List.length_append, List.length_cons]
      omega

/-- What the analysis answers is where turns come to an end, if its bound
covers who waits and what is missing. -/
theorem Tracking.spreads (hg : g.Sound) {bound : Nat}
    {state : List NodeId × OpenSpans} (h : g.Tracking root state)
    (hbound : state.1.length + state.2.missing g.spans.size ≤ bound) :
    g.Spreads state (g.spreadSpans bound state) := by
  induction bound generalizing state with
  | zero =>
      obtain ⟨waiting, found⟩ := state
      obtain rfl : waiting = [] :=
        List.length_eq_zero_iff.mp (by dsimp only at hbound; omega)
      exact .done found
  | succ bound ih =>
      obtain ⟨waiting, found⟩ := state
      cases waiting with
      | nil => exact .done found
      | cons id waiting =>
          unfold spreadSpans
          cases hpass : g.passSpans id (waiting, found) with
          | error cause =>
              exact @Spreads.refused g id [] waiting found cause hpass
          | ok next =>
              have hturn : g.Turn ([] ++ id :: waiting, found) next :=
                .pass hpass
              obtain ⟨htrack, hless⟩ := h.turn hg hturn
              exact .turn hturn (ih htrack (by omega))

/-- If no node is refused its turn, in the end all that is carried has been
found. -/
theorem Spreads.tracking (hg : g.Sound) {state : List NodeId × OpenSpans}
    {result : Except Cause OpenSpans} (h : g.Spreads state result)
    (htrack : g.Tracking root state) {spans : OpenSpans}
    (hok : result = .ok spans) :
    g.Tracking root ([], spans) := by
  induction h with
  | done found =>
      obtain rfl := Except.ok.inj hok
      exact htrack
  | turn first _ ih => exact ih (htrack.turn hg first).1 hok
  | refused run => cases hok

/-- What the analysis has found when it answers: exactly what is carried, and
no span that is carried along an edge is started at its end. -/
structure Activity (g : Graph) (root : NodeId) (spans : OpenSpans) : Prop where
  has_iff : ∀ id span, spans.Has id span ↔ g.Carries root id span
  once : ∀ id span target, g.Carries root id span →
    (g.node id).kind ≠ .spanEnd span →
    g.Leads id target → (g.node target).kind ≠ .spanStart span

/-- Nothing is open anywhere before the analysis. -/
theorem not_has_replicate (size : Nat) (id : NodeId) (span : SpanId) :
    ¬ OpenSpans.Has (Array.replicate size []) id span := by
  intro h
  unfold OpenSpans.Has at h
  by_cases hlt : id < size
  · simp [hlt] at h
  · simp [hlt] at h

/-- The analysis starts with all nodes that are reached waiting. -/
theorem Sound.tracking_start (hg : g.Sound) (root : NodeId) :
    g.Tracking root (g.reachable root, Array.replicate g.size []) where
  size := Array.size_replicate
  reached _ hid := hg.mem_reachable.mp hid
  carried id span h := absurd h (not_has_replicate g.size id span)
  settled _ hid := Or.inl (hg.mem_reachable.mpr hid)

/-- The bound of the analysis covers who waits at the start, and what is
missing. -/
theorem bound_start (g : Graph) (root : NodeId) :
    (g.reachable root).length + OpenSpans.missing g.spans.size
      (Array.replicate g.size [])
      ≤ g.size * (g.spans.size + 1) + 1 := by
  have hlen : (g.reachable root).length ≤ g.size + 1 :=
    Exploration.length_fromRoot_le root
  have hmissing :=
    OpenSpans.missing_le g.spans.size (Array.replicate g.size [])
  rw [Array.size_replicate, Nat.mul_comm] at hmissing
  rw [Nat.mul_succ]
  omega

/-- Where turns come to an end, exactly what is carried has been found. -/
theorem Tracking.activity {spans : OpenSpans}
    (h : g.Tracking root ([], spans)) :
    g.Activity root spans := by
  have hpassed : ∀ id, g.Reaches root id → g.Passed spans id := fun id hid =>
    (h.settled id hid).resolve_left List.not_mem_nil
  have hall : ∀ id span, g.Carries root id span → spans.Has id span := by
    intro id span hcarries
    refine hcarries.induction (P := fun id => spans.Has id span)
      (fun a ha hkind => (hpassed a ha).started span hkind)
      fun a b ha hhas hend hleads => ?_
    exact ((hpassed a ha.reaches).passed span hhas hend b hleads).1
  exact {
    has_iff := fun id span => ⟨h.carried id span, hall id span⟩
    once := fun id span target hcarries hnot hleads =>
      ((hpassed id hcarries.reaches).passed span (hall id span hcarries) hnot
        target hleads).2 }

/-- The analysis finds exactly what is carried. -/
theorem activity_openSpans (hg : g.Sound) {spans : OpenSpans}
    (hok : g.openSpans root = .ok spans) : g.Activity root spans := by
  have htrack := hg.tracking_start root
  exact ((htrack.spreads hg (bound_start g root)).tracking hg htrack
    hok).activity

end Graph

end Bytewise

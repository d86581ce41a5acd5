/-
Which spans may be ended while they are not open.

The check of ends goes edge by edge and compares what is open at the two
nodes of an edge, not what is open behind the first one; it does not look
at edges into nodes that start a span or have no edge, and it takes no
notice of where a run begins. These are all the ways past it: a span is
ended while it is not open if and only if there is an `EndGap`
(`ends_open_iff`).
-/
import Bytewise.Proofs.Graph.OpenSpans

namespace Bytewise

namespace Graph

/-- The check of ends does not look at edges into the node. -/
def Unchecked (g : Graph) (id : NodeId) : Prop :=
  (∃ span, (g.node id).kind = .spanStart span) ∨ (g.node id).isTerminal = true

/-- From the node on, some path comes to an end of the span before any start of
it. -/
inductive ComesToEnd (g : Graph) (span : SpanId) : NodeId → Prop where
  | here {a : NodeId}
      (kind : (g.node a).kind = .spanEnd span) : ComesToEnd g span a
  | step {a b : NodeId} (kind : (g.node a).kind ≠ .spanStart span)
      (leads : g.Leads a b)
      (rest : ComesToEnd g span b) : ComesToEnd g span a

/-- A way to an end of the span that the check of ends lets through. -/
inductive EndGap (g : Graph) (root : NodeId) (span : SpanId) : Prop where
  /-- A run begins before the end, and may come back to its root with the span
  open. -/
  | root (ends : g.ComesToEnd span root)
      (back : (g.node root).kind = .spanEnd span ∨ g.Carries root root span)
  /-- The span has been ended before. -/
  | again {a b : NodeId} (reached : g.Reaches root a)
      (kind : (g.node a).kind = .spanEnd span)
      (leads : g.Leads a b) (ends : g.ComesToEnd span b)
  /-- An edge that is not looked at comes from where the span is never open. -/
  | skipped {a b : NodeId} (reached : g.Reaches root a)
      (never : ¬ g.Carries root a span)
      (leads : g.Leads a b) (unchecked : g.Unchecked b)
        (ends : g.ComesToEnd span b)

variable {g : Graph} {root a b : NodeId} {span : SpanId}

-- ========================================================== the check

/-- An edge that is looked at and found without fault leads to nothing that is
not open before. -/
theorem spanFault_none {spans : OpenSpans} (h : g.spanFault? spans a b = none)
    (hchecked : ¬ g.Unchecked b) :
    (∀ s, spans.Has b s → spans.Has a s)
      ∧ ∀ s, (g.node b).kind = .spanEnd s → spans.Has a s := by
  have hterminal : (g.node b).isTerminal = false :=
    Bool.eq_false_iff.mpr fun h => hchecked (Or.inr h)
  have hsub : (spans.getD b []).find? (!(spans.getD a []).contains ·) = none →
      ∀ s, spans.Has b s → spans.Has a s := by
    intro hfind s hs
    have hfound := List.find?_eq_none.mp hfind s hs
    rw [Bool.not_eq_true, Bool.not_eq_false'] at hfound
    exact List.contains_iff_mem.mp hfound
  unfold spanFault? at h
  dsimp only at h
  cases hkind : (g.node b).kind with
  | spanStart s => exact absurd (Or.inl ⟨s, hkind⟩) hchecked
  | spanEnd s =>
      rw [hkind, hterminal] at h
      cases hfind : (spans.getD b []).find?
          (!(spans.getD a []).contains ·) with
      | some missing =>
          rw [hfind] at h
          cases h
      | none =>
          rw [hfind] at h
          refine ⟨hsub hfind, fun t ht => ?_⟩
          obtain rfl : s = t := NodeKind.spanEnd.inj ht
          by_contra hnot
          have hnot' : ¬ (spans.getD a []).contains s = true :=
            mt List.contains_iff_mem.mp hnot
          simp only [Bool.false_eq_true, if_false, if_neg hnot'] at h
          cases h
  | _ =>
      rw [hkind, hterminal] at h
      cases hfind : (spans.getD b []).find?
          (!(spans.getD a []).contains ·) with
      | some missing =>
          rw [hfind] at h
          cases h
      | none => exact ⟨hsub hfind, fun t ht => nomatch ht⟩

/-- What an accepted graph has been checked for. -/
structure EndsChecked (g : Graph) (root : NodeId) : Prop where
  /-- No span is started while some path has it open. -/
  once : ∀ a span b, g.Carries root a span → (g.node a).kind ≠ .spanEnd span →
    g.Leads a b → (g.node b).kind ≠ .spanStart span
  /-- Along an edge that is looked at no span appears, ... -/
  carried : ∀ a b span, g.Reaches root a → g.Leads a b → ¬ g.Unchecked b →
    g.Carries root b span → g.Carries root a span
  /-- ... and the span that its target ends may be open before. -/
  ended : ∀ a b span, g.Reaches root a → g.Leads a b → ¬ g.Unchecked b →
    (g.node b).kind = .spanEnd span → g.Carries root a span

theorem Sound.endsChecked (hg : g.Sound) {allocation : SpanAllocation}
    (hok : g.allocateSpans root = .ok allocation) : g.EndsChecked root := by
  obtain ⟨spans, hopen, hrest⟩ := ok_of_bind hok
  obtain ⟨⟨⟩, hends, _⟩ := ok_of_bind hrest
  have hactivity := activity_openSpans hg hopen
  have hfault : ∀ a b, g.Reaches root a → g.Leads a b →
      g.spanFault? spans a b = none := by
    intro a b ha hab
    have hcheck := ok_of_forM (ok_of_forM hends (hg.mem_reachable.mpr ha)) hab
    cases h : g.spanFault? spans a b with
    | none => rfl
    | some cause =>
        rw [h] at hcheck
        cases hcheck
  exact {
    once := fun a span b => hactivity.once a span b
    carried := fun a b span ha hab hchecked hb => (hactivity.has_iff a span).mp
      ((spanFault_none (hfault a b ha hab) hchecked).1 span
        ((hactivity.has_iff b span).mpr hb))
    ended := fun a b span ha hab hchecked hkind =>
      (hactivity.has_iff a span).mp
      ((spanFault_none (hfault a b ha hab) hchecked).2 span hkind) }

-- ============================================================== gaps

/-- A path that comes to an end of a span that is not open ends it there. -/
theorem ComesToEnd.unopened (h : g.ComesToEnd span a) {before : Set SpanId}
    (hpath : g.Arrives root a before) (hnot : span ∉ before) :
    ∃ id before', g.Arrives root id before' ∧ (g.node id).kind = .spanEnd span
      ∧ span ∉ before' := by
  induction h generalizing before with
  | here kind => exact ⟨_, before, hpath, kind, hnot⟩
  | step kind leads _ ih =>
      refine ih (hpath.step leads) fun hmem => ?_
      rcases (mem_openAfter.mp hmem).1 with hmem | hstart
      · exact hnot hmem
      · exact kind hstart

/-- Going back along an edge on the way to an end: the span may be open there,
or there is a gap. -/
theorem ComesToEnd.carries_or_gap (hc : g.EndsChecked root)
    (h : g.ComesToEnd span b) (hreach : g.Reaches root a)
    (hleads : g.Leads a b) :
    g.Carries root a span ∨ g.EndGap root span := by
  induction h generalizing a with
  | @here b kind =>
      by_cases hskip : g.Unchecked b
      · by_cases hcarries : g.Carries root a span
        · exact Or.inl hcarries
        · exact Or.inr (.skipped hreach hcarries hleads hskip (.here kind))
      · exact Or.inl (hc.ended a b span hreach hleads hskip kind)
  | @step b c kind leads rest ih =>
      rcases ih (hreach.step hleads) leads with hthere | hgap
      · by_cases hskip : g.Unchecked b
        · by_cases hcarries : g.Carries root a span
          · exact Or.inl hcarries
          · exact Or.inr
              (.skipped hreach hcarries hleads hskip (.step kind leads rest))
        · exact Or.inl (hc.carried a b span hreach hleads hskip hthere)
      · exact Or.inr hgap

/-- A path on its way to an end of a span that is not open has gone through a
gap. -/
theorem Arrives.gap (hc : g.EndsChecked root) {before : Set SpanId}
    (hpath : g.Arrives root a before) (hends : g.ComesToEnd span a)
    (hnot : span ∉ before) :
    g.EndGap root span := by
  induction hpath with
  | root =>
      cases hends with
      | here kind => exact .root (.here kind) (Or.inl kind)
      | step kind leads rest =>
          rcases rest.carries_or_gap hc .refl leads with hback | hgap
          · exact .root (.step kind leads rest) (Or.inr hback)
          · exact hgap
  | @step a b before hpath leads ih =>
      by_cases hend : (g.node a).kind = .spanEnd span
      · exact .again hpath.reaches hend leads hends
      · have hclosed : ¬ (span ∈ before ∨ (g.node a).kind = .spanStart span) :=
          fun h =>
          hnot (mem_openAfter.mpr ⟨h, hend⟩)
        exact ih (.step (fun h => hclosed (Or.inr h)) leads hends) fun h =>
          hclosed (Or.inl h)

/-- In an accepted graph every path ends spans only while they are open, if and
only if there is no gap. -/
theorem ends_open_iff (hg : g.Built) {allocation : SpanAllocation}
    (hok : g.allocateSpans root = .ok allocation) :
    (∀ id span before, g.Arrives root id before →
        (g.node id).kind = .spanEnd span →
        span ∈ before)
      ↔ ∀ span, ¬ g.EndGap root span := by
  constructor
  · intro hopen span hgap
    -- from a gap, a path on which the span is not open comes to an end of it
    obtain ⟨b, before, hpath, hends, hnot⟩ : ∃ b before,
        g.Arrives root b before
        ∧ g.ComesToEnd span b ∧ span ∉ before := by
      cases hgap with
      | root ends _ => exact ⟨root, ∅, .root, ends, Set.notMem_empty _⟩
      | again reached kind leads ends =>
          obtain ⟨before, hpath⟩ := reached.arrives
          exact ⟨_, _, hpath.step leads, ends, fun h =>
            (mem_openAfter.mp h).2 kind⟩
      | skipped reached never leads _ ends =>
          obtain ⟨before, hpath⟩ := reached.arrives
          exact ⟨_, _, hpath.step leads, ends, fun h =>
            never (hpath.carries h).1⟩
    obtain ⟨id, before', hpath', hkind, hnot'⟩ := hends.unopened hpath hnot
    exact hnot' (hopen id span before' hpath' hkind)
  · intro hnone id span before hpath hkind
    by_contra hnot
    exact hnone span (hpath.gap (hg.sound.endsChecked hok) (.here hkind) hnot)

/-- A span that is ended, and ended again a node later: another path keeps it
open around the first end. -/
def endedTwice : Graph :=
  Build.replay [.externalCode "on_span" .span, .span 0, .node "first",
    .node "second",
    .error 1 "done", .spanStart 0 (some 0), .spanEnd 0 (some 1),
      .spanEnd 0 (some 2),
    .matchKey 0 [0x61] 4, .skipTo 0 1, .matchKey 1 [0x62] 5, .skipTo 1 1] {}

theorem built_endedTwice : endedTwice.Built :=
  Built.new.replay (by decide)

/-- The second end is reached with the span closed. -/
theorem unopened_endedTwice :
    endedTwice.Arrives 3 5 ((insert 0 ∅ : Set SpanId) \ {0}) := by
  have hfirst : endedTwice.Arrives 3 0 (insert 0 ∅) :=
    Arrives.step (a := 3) .root (show 0 ∈ _ by decide)
  have hend : endedTwice.Arrives 3 4 (insert 0 ∅) :=
    hfirst.step (show 4 ∈ _ by decide)
  have hsecond : endedTwice.Arrives 3 1 ((insert 0 ∅ : Set SpanId) \ {0}) :=
    hend.step (show 1 ∈ _ by decide)
  exact hsecond.step (show 5 ∈ _ by decide)

/-- The allocation accepts a graph on whose paths a span is ended while it is
not open. -/
theorem accepted_ends_unopened : ∃ g : Graph, ∃ root allocation, g.Built
    ∧ g.allocateSpans root = .ok allocation
    ∧ ∃ id span before, g.Arrives root id before
        ∧ (g.node id).kind = .spanEnd span
        ∧ span ∉ before :=
  ⟨endedTwice, 3, ⟨[(0, 0)], [[0]], some 0⟩, built_endedTwice, by
    decide +kernel, 5, 0, _,
    unopened_endedTwice, by decide, fun h => h.2 rfl⟩

/-- It has a gap: the span has been ended before. -/
theorem endedTwice_gap :
    endedTwice.allocateSpans 3 = .ok ⟨[(0, 0)], [[0]], some 0⟩
    ∧ ¬ ∀ span, ¬ endedTwice.EndGap 3 span := by
  have hok : endedTwice.allocateSpans 3 = .ok ⟨[(0, 0)], [[0]], some 0⟩ := by
    decide +kernel
  refine ⟨hok, fun hnone => ?_⟩
  have hopen := (ends_open_iff built_endedTwice hok).mpr hnone 5 0 _
    unopened_endedTwice (by decide)
  exact hopen.2 rfl

end Graph

end Bytewise

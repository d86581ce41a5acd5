/-
What the analysis of spans answers, in terms of paths alone.

A span is open at a node if a path leads there from a start of it and
passes no end of it (`OpenAt`); it is reopened if such a path comes to a
start of it again (`Reopens`). The analysis refuses exactly the graphs in
which a span is reopened, and finds exactly the spans that are open. As
this leaves nothing to choose, neither does it matter in which order the
nodes have their turns (`openSpans_exact`).
-/
import Mathlib.Data.List.Sort
import Bytewise.Proofs.Graph.OpenSpans

namespace Bytewise

namespace Graph

-- ============================================================= paths

/-- An edge along which the span, once open, stays open. -/
def KeepsOpen (g : Graph) (span : SpanId) (a b : NodeId) : Prop :=
  (g.node a).kind ≠ .spanEnd span ∧ g.Leads a b

/-- A path from the root starts the span, and comes from there to the node
without an end of the span before it. -/
def OpenAt (g : Graph) (root : NodeId) (span : SpanId) (id : NodeId) : Prop :=
  ∃ start, g.Reaches root start ∧ (g.node start).kind = .spanStart span
    ∧ Relation.ReflTransGen (g.KeepsOpen span) start id

/-- A path from the root starts the span, and later starts it again without an
end of the span in between. -/
def Reopens (g : Graph) (root : NodeId) (span : SpanId) : Prop :=
  ∃ start again, g.Reaches root start ∧ (g.node start).kind = .spanStart span
    ∧ Relation.TransGen (g.KeepsOpen span) start again
    ∧ (g.node again).kind = .spanStart span

variable {g : Graph} {root id : NodeId} {span : SpanId}

/-- Only the last start of a span on a path matters, and what follows it. -/
theorem carries_iff_openAt : g.Carries root id span
    ↔ g.OpenAt root span id := by
  constructor
  · intro h
    refine h.induction (P := g.OpenAt root span)
      (fun a ha hkind => ⟨a, ha, hkind, .refl⟩) ?_
    rintro a b - ⟨start, hstart, hkind, hpath⟩ hend hleads
    exact ⟨start, hstart, hkind, hpath.tail ⟨hend, hleads⟩⟩
  · rintro ⟨start, hstart, hkind, hpath⟩
    induction hpath with
    | refl => exact carries_start hstart hkind
    | tail _ hkeeps ih => exact ih.step hkeeps.1 hkeeps.2

/-- A span is reopened where an edge brings it to a start of it. -/
theorem reopens_iff : g.Reopens root span
    ↔ ∃ a b, g.Carries root a span ∧ g.KeepsOpen span a b
        ∧ (g.node b).kind = .spanStart span := by
  constructor
  · rintro ⟨start, again, hstart, hkind, hpath, hagain⟩
    obtain ⟨a, hpath, hlast⟩ := Relation.TransGen.tail'_iff.mp hpath
    exact ⟨a, again, carries_iff_openAt.mpr ⟨start, hstart, hkind, hpath⟩,
      hlast, hagain⟩
  · rintro ⟨a, b, hcarries, hkeeps, hagain⟩
    obtain ⟨start, hstart, hkind, hpath⟩ := carries_iff_openAt.mp hcarries
    exact ⟨start, b, hstart, hkind, Relation.TransGen.tail'_iff.mpr
      ⟨a, hpath, hkeeps⟩, hagain⟩

-- ========================================================== refusals

/-- A span is refused where an edge of the node would reopen it. -/
structure Refuses (g : Graph) (span : SpanId) (id : NodeId) (cause : Cause) :
    Prop where
  reopened : ∃ target, g.KeepsOpen span id target
    ∧ (g.node target).kind = .spanStart span
  cause : cause = .spanLoop (g.spanName span) (g.node id).name

/-- A node is refused its turn only if an edge of it would reopen a span that
it has. -/
theorem passSpans_fails (id : NodeId) (waiting : List NodeId)
    (spans : OpenSpans) :
    FailsWith (fun cause => ∃ span ∈ startedHere g id spans,
      g.Refuses span id cause)
      (g.passSpans id (waiting, spans)) := by
  rw [passSpans_eq]
  refine FailsWith.foldlM _ fun state span hspan => ?_
  refine FailsWith.foldlM _ fun state target htarget cause hrun => ?_
  obtain ⟨hhere, hend⟩ := List.mem_filter.mp hspan
  unfold passSpan at hrun
  dsimp only at hrun
  split at hrun
  · rename_i hkind
    obtain rfl := Except.error.inj hrun
    exact ⟨span, hhere,
      ⟨target, ⟨by simpa using hend, htarget⟩, beq_iff_eq.mp hkind⟩, rfl⟩
  · split at hrun <;> cases hrun

/-- Only a reopened span makes the analysis fail, and the failure names it and
the node before its second start. -/
theorem Spreads.refuses (hg : g.Sound) {state : List NodeId × OpenSpans}
    {result : Except Cause OpenSpans} (h : g.Spreads state result)
    (htrack : g.Tracking root state) {cause : Cause}
    (hrefused : result = .error cause) :
    ∃ span id, g.Carries root id span ∧ g.Refuses span id cause := by
  induction h with
  | done spans => cases hrefused
  | turn first _ ih => exact ih (htrack.turn hg first).1 hrefused
  | @refused id before after spans _ run =>
      obtain rfl := Except.error.inj hrefused
      obtain ⟨span, hhere, hrefuses⟩ := passSpans_fails id _ spans _ run
      refine ⟨span, id, ?_, hrefuses⟩
      rcases mem_startedHere.mp hhere with hhas | hkind
      · exact htrack.carried id span hhas
      · exact carries_start (htrack.toFront.reached id List.mem_cons_self)
          hkind

-- ============================================================= order

/-- No path of turns goes on for ever. -/
theorem Tracking.ends (hg : g.Sound) {state : List NodeId × OpenSpans}
    (h : g.Tracking root state) :
    Acc (fun later earlier => g.Turn earlier later) state := by
  induction hlength : state.1.length + state.2.missing g.spans.size
    using Nat.strong_induction_on
    generalizing state with
  | _ n ih =>
      refine ⟨_, fun next hturn => ?_⟩
      obtain ⟨htrack, hless⟩ := h.turn hg hturn
      exact ih _ (hlength ▸ hless) htrack rfl

/-- The spans of every node are in order. -/
def OpenSpans.Ascending (spans : OpenSpans) : Prop :=
  ∀ id, (spans.getD id []).Pairwise (· < ·)

theorem OpenSpans.Ascending.set {spans : OpenSpans} (h : spans.Ascending)
    {target : NodeId} {here : SpanSet} (hhere : here.Pairwise (· < ·)) :
    OpenSpans.Ascending (spans.setIfInBounds target here) := by
  intro id
  have hid := h id
  by_cases heq : target = id
  · subst heq
    by_cases hlt : target < spans.size
    · simpa [hlt] using hhere
    · simp [hlt]
  · simpa [heq] using hid

/-- Passing one span keeps the spans of every node in order. -/
theorem passSpan_ascending {state next : List NodeId × OpenSpans}
    {target : NodeId} (hrun : g.passSpan id span state target = .ok next)
    (h : state.2.Ascending) :
    next.2.Ascending := by
  unfold passSpan at hrun
  dsimp only at hrun
  split at hrun
  · cases hrun
  · split at hrun
    · obtain rfl := Except.ok.inj hrun
      exact h
    · obtain rfl := Except.ok.inj hrun
      exact h.set (pairwise_insert (h target))

theorem Turn.ascending {state next : List NodeId × OpenSpans}
    (hturn : g.Turn state next)
    (h : state.2.Ascending) : next.2.Ascending := by
  cases hturn with
  | @pass id before after spans _ run =>
      have hhere : (startedHere g id spans).Pairwise (· < ·) := by
        unfold startedHere
        split
        · exact pairwise_insert (h id)
        · exact h id
      rw [passSpans_eq] at run
      -- every step of both folds keeps the order
      refine (foldlM_ok (R := fun a b => a.2.Ascending → b.2.Ascending)
        (Q := fun _ _ => True)
        (fun _ h => h) (fun hab hbc h => hbc (hab h)) (fun _ _ => trivial)
        (fun a b span _ _ hspan => ?_) run).1 (h.set hhere)
      exact ⟨(foldlM_ok (R := fun a b => a.2.Ascending → b.2.Ascending)
        (Q := fun _ _ => True)
        (fun _ h => h) (fun hab hbc h => hbc (hab h)) (fun _ _ => trivial)
        (fun c d target _ _ hpass => ⟨passSpan_ascending hpass, trivial⟩)
          hspan).1, trivial⟩

theorem Spreads.ascending {state : List NodeId × OpenSpans}
    {result : Except Cause OpenSpans} (h : g.Spreads state result)
    (hstate : state.2.Ascending) {spans : OpenSpans}
    (hok : result = .ok spans) : spans.Ascending := by
  induction h with
  | done found =>
      obtain rfl := Except.ok.inj hok
      exact hstate
  | turn first _ ih => exact ih (first.ascending hstate) hok
  | refused run => cases hok

-- ========================================================== exactness

/-- The answer that paths give: a refusal if some span is reopened, else the
spans that are open at each node, in order. -/
structure Exact (g : Graph) (root : NodeId) (result : Except Cause OpenSpans) :
    Prop where
  refused : (∃ cause, result = .error cause) ↔ ∃ span, g.Reopens root span
  names : ∀ cause, result = .error cause → ∃ span id, g.OpenAt root span id
    ∧ g.Refuses span id cause
  size : ∀ spans, result = .ok spans → spans.size = g.size
  found : ∀ spans, result = .ok spans → ∀ id span,
    span ∈ spans.getD id [] ↔ g.OpenAt root span id
  ordered : ∀ spans, result = .ok spans → spans.Ascending

/-- Paths give one answer. -/
theorem Exact.unique {x y : Except Cause OpenSpans} (hx : g.Exact root x)
    (hy : g.Exact root y) {spans : OpenSpans}
    (hok : x = .ok spans) : y = .ok spans := by
  cases hother : y with
  | error cause =>
      obtain ⟨_, herror⟩ := hx.refused.mpr (hy.refused.mp ⟨cause, hother⟩)
      exact nomatch hok.symm.trans herror
  | ok spans' =>
      have hsize := (hy.size spans' hother).trans (hx.size spans hok).symm
      refine congrArg Except.ok (Array.ext hsize fun id hid' hid => ?_)
      have hmem : ∀ span, span ∈ spans'.getD id [] ↔ span ∈ spans.getD id [] :=
        fun span =>
        (hy.found spans' hother id span).trans
          (hx.found spans hok id span).symm
      have hget : spans'.getD id [] = spans.getD id [] :=
        (hy.ordered spans' hother id).eq_of_mem_iff
          (hx.ordered spans hok id) hmem
      simpa [Array.getD, hid, hid'] using hget

/-- Where turns begin with the nodes that the root reaches, they end in the
answer of paths. -/
theorem Spreads.exact (hg : g.Sound) {state : List NodeId × OpenSpans}
    {result : Except Cause OpenSpans} (h : g.Spreads state result)
    (htrack : g.Tracking root state)
    (hstate : state.2.Ascending) : g.Exact root result where
  refused := by
    constructor
    · rintro ⟨cause, hrefused⟩
      obtain ⟨span, id, hcarries, ⟨target, hkeeps, hkind⟩, -⟩ :=
        h.refuses hg htrack hrefused
      exact ⟨span, reopens_iff.mpr ⟨id, target, hcarries, hkeeps, hkind⟩⟩
    · rintro ⟨span, hreopens⟩
      cases hresult : result with
      | error cause => exact ⟨cause, rfl⟩
      | ok spans =>
          obtain ⟨a, b, hcarries, hkeeps, hkind⟩ := reopens_iff.mp hreopens
          have hactivity := (h.tracking hg htrack hresult).activity
          exact absurd hkind
            (hactivity.once a span b hcarries hkeeps.1 hkeeps.2)
  names cause hrefused := by
    obtain ⟨span, id, hcarries, hrefuses⟩ := h.refuses hg htrack hrefused
    exact ⟨span, id, carries_iff_openAt.mp hcarries, hrefuses⟩
  size spans hok := (h.tracking hg htrack hok).size
  found spans hok id span :=
    ((h.tracking hg htrack hok).activity.has_iff id span).trans
      carries_iff_openAt
  ordered spans hok := h.ascending hstate hok

/-- The analysis gives the answer of paths. It would give the same one if the
nodes had their turns in any other order, and in any order there is an end of
the turns. -/
theorem openSpans_exact (hg : g.Built) (root : NodeId) :
    g.Exact root (g.openSpans root)
      ∧ ∀ nodes : List NodeId, (∀ id, id ∈ nodes ↔ g.Reaches root id) →
        Acc (fun later earlier => g.Turn earlier later)
          (nodes, Array.replicate g.size [])
        ∧ ∀ result, g.Spreads (nodes, Array.replicate g.size []) result →
          g.Exact root result
          ∧ ∀ spans, result = .ok spans ↔ g.openSpans root = .ok spans := by
  have hascending : OpenSpans.Ascending (Array.replicate g.size []) :=
    fun id => by
    by_cases hlt : id < g.size <;> simp [hlt]
  have htrack := hg.sound.tracking_start root
  have hexact : g.Exact root (g.openSpans root) :=
    (htrack.spreads hg.sound (bound_start g root)).exact hg.sound
      htrack hascending
  refine ⟨hexact, fun nodes hnodes => ?_⟩
  have hany : g.Tracking root (nodes, Array.replicate g.size []) := {
    htrack with
    reached := fun id hid => (hnodes id).mp hid
    settled := fun id hid => Or.inl ((hnodes id).mpr hid) }
  refine ⟨hany.ends hg.sound, fun result h => ?_⟩
  have hresult := h.exact hg.sound hany hascending
  exact ⟨hresult, fun spans => ⟨hresult.unique hexact, hexact.unique hresult⟩⟩

/-- A span whose body may lead back to its start. -/
def restarted : Graph :=
  Build.replay [.externalCode "on_data" .span, .span 0, .node "body",
    .spanStart 0 (some 0),
    .matchKey 0 [0x78] 1, .spanEnd 0 (some 0), .skipTo 0 2] {}

theorem built_restarted : restarted.Built :=
  Built.new.replay (by decide)

/-- It is refused, and so the span is reopened. -/
theorem reopens_restarted :
    restarted.Built ∧ ∃ span, restarted.Reopens 1 span :=
  ⟨built_restarted, (openSpans_exact built_restarted 1).1.refused.mp
    ⟨.spanLoop "on_data" "body", by decide +kernel⟩⟩

end Graph

end Bytewise

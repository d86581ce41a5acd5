/-
Parsers do not depend on how nodes are numbered.

Graphs that match have the same unread loops, allocate spans alike and are
assembled in lockstep, with the same options and so without any tables in
the other's place; what comes out is not merely alike but equal. Matching
is asked for only where the root leads, so a `Renumbering` says nothing
about what cannot be reached, nor of codes and spans that are not used
there.
-/
import Mathlib.Data.Set.Function
import Bytewise.Proofs.Graph.TwinLoops
import Bytewise.Proofs.Graph.TwinSpans
import Bytewise.Proofs.Parser.Matching

namespace Bytewise

-- ========================================================== assembling

/-- Twins without swaps are equal. -/
theorem Machine.Twins.eq {m m' : Machine} (h : m.Twins False m') : m = m' := by
  obtain ⟨states, codes⟩ := m
  obtain ⟨states', codes'⟩ := m'
  obtain rfl : codes = codes' := h.codes
  have hstates : states = states' := by
    refine Array.ext h.size fun s hs hs' => ?_
    have hsame := (h.states s).resolve_right And.left
    unfold Machine.state at hsame
    rwa [Array.getD, dif_pos hs, Array.getD, dif_pos hs'] at hsame
  rw [hstates]

theorem Parser.Twins.eq {p p' : Parser} (h : p.Twins False p') : p = p' := by
  obtain ⟨symbolPrefix, machine, root, properties, slots, resumable⟩ := p
  obtain ⟨hsymbol, hmachine, hroot, hproperties, hslots, hresumable⟩ := h
  obtain rfl := hmachine.eq
  dsimp only at hsymbol hroot hproperties hslots hresumable
  rw [hsymbol, hroot, hproperties, hslots, hresumable]

section

variable {m : NodeId → NodeId → Prop} {spans : SpanId → SpanId → Prop}
  {g g' : Graph} {root root' : NodeId}

/-- What graphs that match are assembled from matches. -/
theorem Graph.Matches.blueprint (h : Graph.Matches m spans g g')
    (options : Options) {allocation allocation' : SpanAllocation}
    (hallocation : Graph.AllocationMatches spans allocation allocation') :
    Blueprint.Matches False m ⟨g, options, allocation⟩
        ⟨g', options, allocation'⟩ where
  unique := h.unique
  sound := h.left
  inside := h.inside
  nodes n n' hn := (h.nodes n n' hn).imp (fun _ _ _ htarget => htarget)
    (fun _ _ hcode => hcode)
    fun s s' _ hs => ⟨hallocation.slot s s' hs, h.callbacks s s' hs⟩
  options := Or.inr rfl
  sharing := hallocation.sharing.imp fun _ _ hshared =>
    hshared.imp fun s s' hs => h.callbacks s s' hs

/-- Graphs that match have one parser, or none for one cause. -/
theorem Graph.Matches.ofGraph_eq (h : Graph.Matches m spans g g')
    (hroot : m root root') (hproperties : g.properties = g'.properties)
    (symbolPrefix : String) (options : Options) :
    Parser.ofGraph g root symbolPrefix options = Parser.ofGraph g' root'
        symbolPrefix options := by
  have hassembled : Agree (fun r r' => r.1 = r'.1
      ∧ r.2.machine.Twins False r'.2.machine)
      (Parser.assembled g root symbolPrefix options)
      (Parser.assembled g' root' symbolPrefix options) := by
    unfold Parser.assembled
    refine (Agree.refl (fun _ => rfl) options.validate).bind fun _ _ _ => ?_
    rw [Graph.checkLoops_eq h hroot]
    refine (Agree.refl (fun _ => rfl) (g'.checkLoops root')).bind
      fun _ _ _ => ?_
    refine (Graph.allocateSpans_agrees h hroot).bind
      fun allocation allocation' hallocation => ?_
    exact Assembly.assemble_agrees (h.blueprint options hallocation)
      (Or.inl hroot) symbolPrefix
  exact ((Parser.ofGraph_twins hproperties hassembled).mono fun _ _ htwins =>
    htwins.eq).eq

end

-- ======================================================== renumbering

namespace Graph

/-- A node that the root leads to starts or ends the span. -/
def UsesSpan (g : Graph) (root : NodeId) (span : SpanId) : Prop :=
  ∃ n, g.Reaches root n ∧ (g.node n).span? = some span

/-- A span that is used has been declared. -/
theorem UsesSpan.lt {g : Graph} {root : NodeId} {span : SpanId}
    (h : g.UsesSpan root span) (hg : g.Sound)
    (hroot : root < g.size) : span < g.spans.size := by
  obtain ⟨n, hreach, hspan⟩ := h
  have hfits := (hg.nodes n (hg.reaches_lt hroot hreach)).kind
  unfold Node.span? at hspan
  cases hkind : (g.node n).kind with
  | spanStart s =>
      rw [hkind] at hspan hfits
      exact Option.some.inj hspan ▸ hfits
  | spanEnd s =>
      rw [hkind] at hspan hfits
      exact Option.some.inj hspan ▸ hfits
  | _ =>
      rw [hkind] at hspan
      cases hspan

/-- The nodes that `root` leads to are, under other numbers, those that `root'`
leads to in the other graph: they are called alike, do the same, with codes
that are equal, and have the same edges in the same order. Spans have other
numbers in the same order. -/
structure Renumbering (node : NodeId → NodeId) (span : SpanId → SpanId)
    (g : Graph) (root : NodeId) (g' : Graph) (root' : NodeId) : Prop where
  start : node root = root'
  bijective : Set.BijOn node {n | g.Reaches root n} {n | g'.Reaches root' n}
  nodes : ∀ n, g.Reaches root n → Node.Matches (fun n n' => node n = n')
    (fun c c' => g.code c = g'.code c') (fun s s' => span s = s') (g.node n)
    (g'.node (node n))
  ordered : ∀ s t, g.UsesSpan root s → g.UsesSpan root t → s < t →
    span s < span t
  callbacks : ∀ s, g.UsesSpan root s →
    g.code (g.spanCallback s) = g'.code (g'.spanCallback (span s))

variable {node : NodeId → NodeId} {span : SpanId → SpanId} {g g' : Graph}
  {root root' : NodeId}

/-- Numbers that keep nodes apart are enough: what `root` leads to is then led
to under its number, and nothing else is. -/
theorem Renumbering.of_injOn (hstart : node root = root')
    (hinjective : Set.InjOn node {n | g.Reaches root n})
    (hnodes : ∀ n, g.Reaches root n → Node.Matches (fun n n' => node n = n')
      (fun c c' => g.code c = g'.code c') (fun s s' => span s = s') (g.node n)
      (g'.node (node n)))
    (hordered : ∀ s t, g.UsesSpan root s → g.UsesSpan root t → s < t →
      span s < span t)
    (hcallbacks : ∀ s, g.UsesSpan root s →
      g.code (g.spanCallback s) = g'.code (g'.spanCallback (span s))) :
    Renumbering node span g root g' root' := by
  have htargets : ∀ n, g.Reaches root n →
      (g'.node (node n)).targets = (g.node n).targets.map node :=
        fun n hreach =>
    (List.forall₂_eq_eq_eq ▸ List.forall₂_map_left_iff.mpr
      (hnodes n hreach).targets).symm
  have hforth : ∀ n, g.Reaches root n → g'.Reaches root' (node n) := by
    intro n hn
    induction hn with
    | refl => exact hstart ▸ Reaches.refl
    | tail hreach hleads ih =>
        refine ih.step ?_
        unfold Leads
        rw [htargets _ hreach]
        exact List.mem_map_of_mem hleads
  have hback : ∀ n', g'.Reaches root' n' → ∃ n, g.Reaches root n
      ∧ node n = n' := by
    intro n' hn'
    induction hn' with
    | refl => exact ⟨root, Reaches.refl, hstart⟩
    | tail _ hleads ih =>
        obtain ⟨n, hn, rfl⟩ := ih
        unfold Leads at hleads
        rw [htargets n hn] at hleads
        obtain ⟨t, ht, rfl⟩ := List.mem_map.mp hleads
        exact ⟨t, hn.step ht, rfl⟩
  exact ⟨hstart, ⟨hforth, hinjective, hback⟩, hnodes, hordered, hcallbacks⟩

/-- What is renumbered matches, where the roots lead. -/
theorem Renumbering.matches (h : Renumbering node span g root g' root')
    (hg : g.Sound) (hg' : g'.Sound) (hroot : root < g.size)
    (hroot' : root' < g'.size) :
    Graph.Matches (fun n n' => g.Reaches root n ∧ node n = n')
      (fun s s' => g.UsesSpan root s ∧ span s = s') g g' where
  left := hg
  right := hg'
  unique := by
    refine ⟨fun a b c ha hb => ?_, fun a b c hb hc => hb.2.symm.trans hc.2⟩
    obtain ⟨ha, rfl⟩ := ha
    exact h.bijective.injOn ha hb.1 hb.2.symm
  inside n n' hn := by
    obtain ⟨hreach, rfl⟩ := hn
    exact ⟨hg.reaches_lt hroot hreach, hg'.reaches_lt hroot'
      (h.bijective.mapsTo hreach)⟩
  nodes n n' hn := by
    obtain ⟨hreach, rfl⟩ := hn
    exact (h.nodes n hreach).imp
      (fun t t' ht htarget => ⟨hreach.step ht, htarget⟩)
      (fun _ _ hcode => hcode) fun s s' hs hsame => ⟨⟨n, hreach, hs⟩, hsame⟩
  ordered s s' t t' hs ht := by
    obtain ⟨hs, rfl⟩ := hs
    obtain ⟨ht, rfl⟩ := ht
    refine ⟨h.ordered s t hs ht, fun hlt => ?_⟩
    by_contra hnot
    rcases Nat.lt_or_eq_of_le (Nat.not_lt.mp hnot) with hts | rfl
    · exact Nat.lt_asymm hlt (h.ordered t s ht hs hts)
    · exact Nat.lt_irrefl _ hlt
  callbacks s s' hs := by
    obtain ⟨hs, rfl⟩ := hs
    exact h.callbacks s hs

end Graph

end Bytewise

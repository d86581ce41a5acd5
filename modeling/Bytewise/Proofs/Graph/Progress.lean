/-
Progress: a parser does not come back to a node on the same unread byte.

`Unread` is what the parser does with one byte: it compares the byte as
the transform of a match node leaves it. The search for loops compares the
byte as it is. `Overlooks` says where the two differ, and a loop that the
search lets through must go through such a node (`spin_overlooked`):
everywhere else each unread step is an edge that the byte passes.
-/
import Bytewise.Proofs.Graph.Loops

namespace Bytewise

-- ======================================================= unread steps

/-- The byte that a match node compares with its keys. -/
def normalize (transform : Option Transform) (c : UInt8) : UInt8 :=
  (transform.getD .identity).apply c

/-- Kinds that go on at the otherwise edge whatever the input. -/
def NodeKind.GoesOn : NodeKind → Prop
  | .spanStart _ | .spanEnd _ | .pause .. | .consume _ => True
  | _ => False

namespace Graph

/-- Standing at a node with `c` as the next byte, the parser can go on at
another node with `c` still unread. -/
inductive Unread (g : Graph) (c : UInt8) (a : NodeId) : NodeId → Prop where
  /-- A match node takes the edge that peeks at the byte. -/
  | peek {t : Option Transform} {e : Edge}
      (kind : (g.node a).kind = .dispatch t)
      (mem : e ∈ (g.node a).edges) (stays : e.noAdvance = true)
      (key : e.key = some (.bytes [normalize t c])) : Unread g c a e.target
  /-- A match node finds no key for the byte. -/
  | pass {t : Option Transform} {e : Edge}
      (kind : (g.node a).kind = .dispatch t)
      (free : ∀ e ∈ (g.node a).edges, e.firstByte? ≠ some (normalize t c))
      (otherwise : (g.node a).otherwise = some e)
        (stays : e.noAdvance = true) :
      Unread g c a e.target
  /-- A code may return anything. -/
  | call {code : CodeRef} {e : Edge} (kind : (g.node a).kind = .invoke code)
      (mem : e ∈ (g.node a).allEdges) : Unread g c a e.target
  /-- Other nodes have one way to go on. -/
  | goOn {e : Edge} (kind : (g.node a).kind.GoesOn)
      (otherwise : (g.node a).otherwise = some e)
      (stays : e.noAdvance = true) :
      Unread g c a e.target

/-- The parser can come back to `a` without reading `c`. -/
def Spins (g : Graph) (c : UInt8) (a : NodeId) : Prop :=
  Relation.TransGen (g.Unread c) a a

/-- Some key that is consumed starts with `c`. -/
def Consumes (g : Graph) (c : UInt8) (a : NodeId) : Prop :=
  ∃ e ∈ (g.node a).edges, e.noAdvance = false ∧ e.firstByte? = some c

/-- The match node `a` leaves `c` unread, and the byte itself does not show it:
the key it peeks at is another byte, or a key that is consumed starts with
`c`. -/
def Overlooks (g : Graph) (c : UInt8) (a : NodeId) : Prop :=
  ∃ t, (g.node a).kind = .dispatch t
    ∧ ((∃ e ∈ (g.node a).edges, e.noAdvance = true
          ∧ e.key = some (.bytes [normalize t c])
          ∧ (normalize t c ≠ c ∨ g.Consumes c a))
      ∨ ((∀ e ∈ (g.node a).edges, e.firstByte? ≠ some (normalize t c))
          ∧ g.Consumes c a
          ∧ ∃ e ∈ (g.node a).otherwise, e.noAdvance = true))

variable {g : Graph} {root a b u : NodeId} {c : UInt8}

/-- Unread steps are edges. -/
theorem Unread.leads (h : g.Unread c a b) : g.Leads a b := by
  cases h with
  | peek _ mem _ _ => exact leads_of_edge (mem_allEdges.mpr (Or.inl mem))
  | pass _ _ otherwise _ =>
      exact leads_of_edge (mem_allEdges.mpr (Or.inr otherwise))
  | call _ mem => exact leads_of_edge mem
  | goOn _ otherwise _ =>
      exact leads_of_edge (mem_allEdges.mpr (Or.inr otherwise))

/-- Nodes other than match nodes consume no key. -/
theorem Sound.not_consumes (hg : g.Sound)
    (h : ∀ t, (g.node a).kind ≠ .dispatch t) :
    ¬ g.Consumes c a := by
  intro hsome
  obtain ⟨e, he, hadv, _⟩ := hsome
  have hlt := lt_of_mem_allEdges (mem_allEdges.mpr (Or.inl he))
  have hfits := (hg.nodes a hlt).keyed e he
  cases hkind : (g.node a).kind with
  | dispatch t => exact h t hkind
  | invoke code =>
      rw [hkind] at hfits
      rw [hfits.2.1] at hadv
      cases hadv
  | error code reason => rw [hkind] at hfits; exact hfits
  | pause code reason => rw [hkind] at hfits; exact hfits
  | consume field => rw [hkind] at hfits; exact hfits
  | spanStart span => rw [hkind] at hfits; exact hfits
  | spanEnd span => rw [hkind] at hfits; exact hfits

/-- An otherwise edge has no key for a byte to match. -/
theorem Sound.otherwise_key (hg : g.Sound) {e : Edge}
    (he : (g.node a).otherwise = some e) :
    e.firstByte? = none := by
  have hlt := lt_of_mem_allEdges (mem_allEdges.mpr (Or.inr he))
  have hfits := (hg.nodes a hlt).otherwise e he
  unfold Edge.firstByte?
  rw [hfits.1]
  rfl

/-- A byte that no consumed key starts with passes an edge with its key or
without one. -/
private theorem passes_of_edge (hfree : ¬ g.Consumes c a) {e : Edge}
    (he : e ∈ (g.node a).allEdges) (stays : e.noAdvance = true)
    (hkey : ∀ b ∈ e.firstByte?, c = b) : g.Passes c a e.target :=
  ⟨Bool.eq_false_iff.mpr (mt ((g.node a).contains_consumedBytes c).mp hfree),
    e, he, stays, rfl, hkey⟩

/-- An unread step is an edge that the byte passes, except from a node that
overlooks the byte. -/
theorem Unread.passes (hg : g.Sound) (h : g.Unread c a b) :
    g.Passes c a b ∨ g.Overlooks c a := by
  cases h with
  | @peek t e kind mem stays key =>
      by_cases hsame : normalize t c = c
      · by_cases hcons : g.Consumes c a
        · exact Or.inr ⟨t, kind, Or.inl ⟨e, mem, stays, key, Or.inr hcons⟩⟩
        · refine Or.inl
            (passes_of_edge hcons (mem_allEdges.mpr (Or.inl mem)) stays ?_)
          intro b hb
          have : e.firstByte? = some c := by
            unfold Edge.firstByte?
            rw [key, hsame]
            rfl
          rw [this] at hb
          exact Option.some.inj hb
      · exact Or.inr ⟨t, kind, Or.inl ⟨e, mem, stays, key, Or.inl hsame⟩⟩
  | @pass t e kind free otherwise stays =>
      by_cases hcons : g.Consumes c a
      · exact Or.inr ⟨t, kind, Or.inr ⟨free, hcons, e, otherwise, stays⟩⟩
      · refine Or.inl
          (passes_of_edge hcons (mem_allEdges.mpr (Or.inr otherwise)) stays ?_)
        rw [hg.otherwise_key otherwise]
        exact fun b hb => nomatch hb
  | @call code e kind mem =>
      have hlt := lt_of_mem_allEdges mem
      refine Or.inl (passes_of_edge (hg.not_consumes fun t h => ?_) mem ?_ ?_)
      · rw [kind] at h
        cases h
      · rcases mem_allEdges.mp mem with mem | otherwise
        · have hfits := (hg.nodes a hlt).keyed e mem
          rw [kind] at hfits
          exact hfits.2.1
        · have hfits := (hg.nodes a hlt).otherwise e otherwise
          rw [kind] at hfits
          exact hfits.2.2
      · rcases mem_allEdges.mp mem with mem | otherwise
        · have hfits := (hg.nodes a hlt).keyed e mem
          rw [kind] at hfits
          obtain ⟨⟨code, hkey⟩, _⟩ := hfits
          unfold Edge.firstByte?
          rw [hkey]
          exact fun b hb => nomatch hb
        · rw [hg.otherwise_key otherwise]
          exact fun b hb => nomatch hb
  | @goOn e kind otherwise stays =>
      refine Or.inl (passes_of_edge (hg.not_consumes fun t h => ?_)
        (mem_allEdges.mpr (Or.inr otherwise)) stays ?_)
      · rw [h] at kind
        exact kind
      · rw [hg.otherwise_key otherwise]
        exact fun b hb => nomatch hb

-- ============================================================ progress

/-- Every node on a round of unread steps spins. -/
private theorem spins_on_round (hab : Relation.ReflTransGen (g.Unread c) u a)
    (h : g.Unread c a b) (hback : Relation.ReflTransGen (g.Unread c) b u) :
    g.Spins c a :=
  Relation.TransGen.head' h (hback.trans hab)

/-- In an accepted graph, a round of unread steps goes through a node that
overlooks the byte. -/
theorem spin_overlooked (hg : g.Sound) (hok : g.checkLoops root = .ok ())
    (hu : g.Reaches root u) (hspin : g.Spins c u) :
    ∃ w, g.Reaches root w ∧ g.Overlooks c w ∧ g.Spins c w := by
  by_contra hnone
  push Not at hnone
  -- with nothing overlooked, the round is one of edges that the byte passes
  have hround : ∀ w, Relation.TransGen (g.Unread c) u w →
      Relation.ReflTransGen (g.Unread c) w u →
      Relation.TransGen (g.Passes c) u w := by
    intro w hw
    induction hw with
    | @single w hstep =>
        intro hback
        have hspins := spins_on_round .refl hstep hback
        exact .single ((hstep.passes hg).resolve_right fun hover =>
          hnone u hu hover hspins)
    | @tail v w hv hstep ih =>
        intro hback
        have hspins := spins_on_round hv.to_reflTransGen hstep hback
        have hreach : g.Reaches root v :=
          hu.trans (hv.to_reflTransGen.lift id fun _ _ => Unread.leads)
        exact (ih (.head hstep hback)).tail
          ((hstep.passes hg).resolve_right fun hover => hnone v hreach
            hover hspins)
  have hstart : u < g.size := by
    obtain ⟨v, hstep, _⟩ := Relation.TransGen.head'_iff.mp hspin
    exact lt_of_leads hstep.leads
  have hcheck := ok_of_forM hok (hg.mem_reachable.mpr hu)
  exact not_passes_around hg hstart hcheck c (hround u hspin .refl)

/-- Where the byte is compared as it is, it is overlooked only if it is both
peeked at and consumed. -/
theorem Overlooks.peeked (h : g.Overlooks c a)
    (hsame : ∀ t, (g.node a).kind = .dispatch t → normalize t c = c) :
    g.Consumes c a ∧ ∃ e ∈ (g.node a).edges, e.noAdvance = true
        ∧ e.firstByte? = some c := by
  obtain ⟨t, kind, h⟩ := h
  rw [hsame t kind] at h
  rcases h with ⟨e, he, stays, key, hcons⟩ | ⟨free, ⟨e, he, _, hkey⟩, _⟩
  · refine ⟨hcons.resolve_left fun hne => hne rfl, e, he, stays, ?_⟩
    unfold Edge.firstByte?
    rw [key]
    rfl
  · exact absurd hkey (free e he)

/-- If no match node normalizes, and none peeks at a byte that a key of its
consumes, the parser of an accepted graph makes progress everywhere. -/
theorem progress_of_plain (hg : g.Sound) (hok : g.checkLoops root = .ok ())
    (hsame : ∀ a c t, g.Reaches root a → (g.node a).kind = .dispatch t →
      normalize t c = c)
    (hpeek : ∀ a c, g.Reaches root a → g.Consumes c a →
      ∀ e ∈ (g.node a).edges, e.noAdvance = true → e.firstByte? ≠ some c)
    (hu : g.Reaches root u) : ¬ g.Spins c u := by
  intro hspin
  obtain ⟨w, hw, hover, _⟩ := spin_overlooked hg hok hu hspin
  obtain ⟨hcons, e, he, stays, hkey⟩ :=
    hover.peeked fun t kind => hsame w c t hw kind
  exact hpeek w c hw hcons e he stays hkey

/-- The parser of an accepted graph makes progress everywhere if and only if it
does where a byte is overlooked. -/
theorem progress_iff_overlooked (hg : g.Built)
    (hok : g.checkLoops root = .ok ()) :
    (∀ u c, g.Reaches root u → ¬ g.Spins c u)
      ↔ ∀ u c, g.Reaches root u → g.Overlooks c u → ¬ g.Spins c u := by
  constructor
  · intro h u c hu _
    exact h u c hu
  · intro h u c hu hspin
    obtain ⟨w, hw, hover, hspins⟩ := spin_overlooked hg.sound hok hu hspin
    exact h w c hw hover hspins

/-- A node that lowers its byte peeks at `a`, and the node it goes on at finds
no key: on `A` the two send the parser round for ever. -/
def loweredPeek : Graph :=
  Build.replay [.node "lowering", .transform 0 .lower, .node "plain",
    .peek 0 0x61 1, .skipTo 0 0,
    .matchKey 1 [0x61] 0, .otherwise 1 0] {}

theorem built_loweredPeek : loweredPeek.Built :=
  Built.new.replay (by decide)

theorem spins_loweredPeek : loweredPeek.Spins 0x41 0 := by
  have hpeek : loweredPeek.Unread 0x41 0 1 :=
    Unread.peek (t := some .lower) (e := ⟨some (.bytes [0x61]), 1, true, none⟩)
      (by decide) (by decide) rfl (by decide)
  have hpass : loweredPeek.Unread 0x41 1 0 :=
    Unread.pass (t := none) (e := ⟨none, 0, true, none⟩)
      (by decide) (by decide) (by decide) rfl
  exact .tail (.single hpeek) hpass

/-- The search for loops accepts a graph whose parser spins. -/
theorem accepted_spins : ∃ g : Graph, ∃ root, g.Built
    ∧ g.checkLoops root = .ok ()
    ∧ ∃ u c, g.Reaches root u ∧ g.Spins c u :=
  ⟨loweredPeek, 0, built_loweredPeek, by
    decide +kernel, 0, 0x41, .refl, spins_loweredPeek⟩

/-- It spins where it overlooks a byte. -/
theorem overlooked_loweredPeek : loweredPeek.checkLoops 0 = .ok ()
    ∧ ¬ ∀ u c, loweredPeek.Reaches 0 u → loweredPeek.Overlooks c u →
        ¬ loweredPeek.Spins c u := by
  have hok : loweredPeek.checkLoops 0 = .ok () := by decide +kernel
  refine ⟨hok, fun h => ?_⟩
  exact (progress_iff_overlooked built_loweredPeek hok).mpr h 0 0x41 .refl
    spins_loweredPeek

end Graph

end Bytewise

/-
Tables are an optimisation.

Options that can be used decide which levels of a trie become tables, and
nothing else about a parser: with any two sets of them a graph fails
alike, or has parsers that branch on bytes in one place where the other
looks them up. It is the lockstep of an assembly with itself, under other
options.
-/
import Mathlib
import Bytewise.Proofs.Parser.Matching

namespace Bytewise

namespace Graph

variable {g : Graph} {root n n' : NodeId}

/-- A node that the root leads to, matched with itself. -/
def SameReached (g : Graph) (root n n' : NodeId) : Prop :=
  n = n' ∧ g.Reaches root n ∧ n < g.size

theorem SameReached.node (hg : g.Sound) (h : g.SameReached root n n')
    {codes : CodeRef → CodeRef → Prop} {spans : SpanId → SpanId → Prop}
    (hcodes : ∀ c, codes c c) (hspans : ∀ s, spans s s) :
    Node.Matches (g.SameReached root) codes spans (g.node n) (g.node n') := by
  obtain ⟨rfl, hreach, _⟩ := h
  refine (Node.Matches.refl (g.node n)).imp (fun t t' ht heq => ?_)
    (fun c c' heq => heq ▸ hcodes c)
    fun s s' _ heq => heq ▸ hspans s
  exact ⟨heq, hreach.step ht, hg.target_lt ht⟩

end Graph

/-- What is assembled from one graph under two sets of options matches, if
tables may differ. -/
theorem Blueprint.matches_self {bp bp' : Blueprint} (hg : bp.graph.Sound)
    (hgraph : bp.graph = bp'.graph) (hspans : bp.spans = bp'.spans)
    (root : NodeId) :
    Blueprint.Matches True (bp.graph.SameReached root) bp bp' where
  unique :=
    ⟨fun _ _ _ h h' => h.1.trans h'.1.symm, fun _ _ _ h h' =>
      h.1.symm.trans h'.1⟩
  sound := hg
  inside n n' h := ⟨h.2.2, h.1 ▸ hgraph ▸ h.2.2⟩
  nodes n n' h := by
    rw [← hgraph]
    exact h.node hg (fun _ => rfl) fun span => ⟨by rw [hspans], by rw [hgraph]⟩
  options := Or.inl trivial
  sharing := by
    rw [← hgraph, ← hspans]
    exact List.forall₂_same.mpr fun spans _ => List.forall₂_same.mpr
      fun span _ => rfl

namespace Parser

/-- The parsers have one root, one set of codes, properties and span slots, and
resume and list the same states; states are equal one by one, but that some
branch on bytes where the other looks them up, and choose alike on every
byte. -/
structure SameButTables (p p' : Parser) : Prop where
  symbolPrefix : p.symbolPrefix = p'.symbolPrefix
  root : p.root = p'.root
  codes : p.machine.codes = p'.machine.codes
  properties : p.properties = p'.properties
  slots : p.slots = p'.slots
  resumable : p.resumable = p'.resumable
  listed : p.machine.enumerate p.root = p'.machine.enumerate p'.root
  size : p.machine.size = p'.machine.size
  states : ∀ s, p.machine.state s = p'.machine.state s
    ∨ (p.machine.state s).Interchanged (p'.machine.state s)

theorem Twins.sameButTables {swaps : Prop} {p p' : Parser}
    (h : p.Twins swaps p') :
    p.SameButTables p' where
  symbolPrefix := h.symbolPrefix
  root := h.root
  codes := h.machine.codes
  properties := h.properties
  slots := h.slots
  resumable := h.resumable
  listed := by rw [h.machine.enumerate, h.root]
  size := h.machine.size
  states s := (h.machine.states s).imp_right fun ⟨_, hswapped⟩ =>
    hswapped.toInterchanged

variable {g : Graph} {options options' : Options}

private theorem assembled_valid (hok : options.validate = .ok ())
    (root : NodeId)
    (symbolPrefix : String) : assembled g root symbolPrefix options = (do
      g.checkLoops root
      let spans ← g.allocateSpans root
      let bp : Blueprint := { graph := g, options, spans }
      (bp.assemble root).run (Assembly.start symbolPrefix g.size)) := by
  unfold assembled
  rw [hok]
  rfl

/-- With two sets of options that can be used, a graph fails alike, or has
parsers that differ in their tables only. -/
theorem ofGraph_sameButTables (hg : g.Built) (root : NodeId)
    (symbolPrefix : String) (hok : options.validate = .ok ())
    (hok' : options'.validate = .ok ()) :
    Bytewise.Agree SameButTables (ofGraph g root symbolPrefix options)
      (ofGraph g root symbolPrefix options') := by
  have hassembled : Bytewise.Agree (fun r r' => r.1 = r'.1
      ∧ r.2.machine.Twins True r'.2.machine)
      (assembled g root symbolPrefix options)
          (assembled g root symbolPrefix options') := by
    rw [assembled_valid hok, assembled_valid hok']
    refine (Bytewise.Agree.refl (fun _ => rfl) (g.checkLoops root)).bind
      fun _ _ _ => ?_
    refine (Bytewise.Agree.refl (fun _ => rfl) (g.allocateSpans root)).bind
      fun spans spans' hspans => ?_
    have hmatches := @Blueprint.matches_self ⟨g, options, spans⟩
      ⟨g, options', spans'⟩ hg.sound
      rfl hspans root
    refine Assembly.assemble_agrees hmatches ?_ symbolPrefix
    rcases Nat.lt_or_ge root g.size with hlt | hge
    · exact Or.inl ⟨rfl, .refl, hlt⟩
    · exact Or.inr ⟨hge, hge⟩
  exact (ofGraph_twins rfl hassembled).mono fun p p' htwins =>
    htwins.sameButTables

/-- A run of zeros and ones. -/
def bits : Graph :=
  Build.replay [.node "bit", .error 1 "no bit", .matchKey 0 [0x30] 0,
    .matchKey 0 [0x31] 0,
    .otherwise 0 1] {}

theorem built_bits : bits.Built :=
  Graph.Built.new.replay (by decide)

/-- The parser of the bits, whose first state is of this kind and has these
edges. -/
def bitsParser (kind : Machine.StateKind) (edges : List Machine.Edge) :
    Parser where
  symbolPrefix := "b"
  machine.states := #[
    { name := "b__n_bit", nodeName := "bit", kind, edges,
      otherwise := some (.otherwise 1 true) },
    { name := "b__n_error", nodeName := "error", kind := .error 1 "no bit" }]
  root := 0
  resumable := [0]

/-- Two branches are enough for a table, if tables of two are wanted. -/
theorem bits_sameButTables :
    ofGraph bits 0 "b" {}
        = .ok (bitsParser .single [⟨some (.byte 0x30), 0, false, none⟩,
        ⟨some (.byte 0x31), 0, false, none⟩])
      ∧ ofGraph bits 0 "b" { minTableSize := 2 }
        = .ok
          (bitsParser .table [⟨some (.bytes [0x30, 0x31]), 0, false, none⟩])
      ∧ Bytewise.Agree SameButTables (ofGraph bits 0 "b" {})
        (ofGraph bits 0 "b" { minTableSize := 2 }) :=
  ⟨by cbv, by
    cbv, ofGraph_sameButTables built_bits 0 "b" (by decide) (by decide)⟩

end Parser

end Bytewise

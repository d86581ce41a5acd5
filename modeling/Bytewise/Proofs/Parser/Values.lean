/-
Values of the codes that take one.

The builder checks every edge into a node that calls a code with a value,
and the edges of a parser keep the values of those they stand for. What
nothing checks is where a parser begins: its first state may call such a
code, and there nothing has been assigned.
-/
import Bytewise.Proofs.Artifact
import Bytewise.Proofs.Execution.Sessions
import Bytewise.Proofs.Graph.Lawful
import Bytewise.Proofs.Parser.Acceptance

namespace Bytewise

namespace Parser

variable {parser : Parser} {bp : Blueprint} {root : NodeId}
  {entry : NodeId → Option StateId} {l : Layout} {s : StateId}

/-- An edge to a node that takes a value lands where one is taken. -/
theorem Image.takesValue_of_node (h : parser.Image bp root entry l)
    {n : NodeId} (hs : l.lands n s) (htakes : bp.graph.TakesValue n) :
    parser.machine.TakesValue s := by
  obtain ⟨ref, hkind, hvalue⟩ := htakes
  obtain ⟨k, hforwards, hk⟩ := (h.lands n s).mp hs
  -- only match nodes forward, so the state is that of the node itself
  rcases hforwards.cases_head with heq | ⟨_, ⟨t, _, hdispatch, _⟩, _⟩
  · subst heq
    have hfits := h.kindFits_of_entry hk (by simp [hkind])
    obtain ⟨callee, hcallee, hcompiles⟩ := hfits.invoke hkind
    refine ⟨callee, hcallee, ?_⟩
    rw [← hvalue, ← h.machine]
    exact congrArg CodeKind.signature hcompiles.kind
  · rw [hkind] at hdispatch
    cases hdispatch

/-- Every code that takes a value is passed one, whatever the input, the
chunks, the answers of callbacks and the pauses, if and only if the graph is
not entered at a node that takes one. -/
theorem values_assigned_iff {g : Graph} {symbolPrefix : String}
    {options : Options} (hg : g.Built)
    (hok : ofGraph g root symbolPrefix options = .ok parser) :
    parser.ValuesAssigned ↔ ¬ g.TakesValue root := by
  obtain ⟨spans, l, hspans, himage, _, hlands, _⟩ :=
    image_of_ofGraph hg.sound hok
  have hdisciplined :=
    himage.disciplined hg.sound (hg.sound.endsChecked hspans)
    (hg.sound.slotsAllocated hspans)
  have hroot : parser.machine.TakesValue parser.root ↔ g.TakesValue root :=
    ⟨himage.takesValue hg.sound hlands, himage.takesValue_of_node hlands⟩
  rw [hdisciplined.valuesAssigned, hroot]

/-- A byte "a" sets a mark. -/
def marks : Graph :=
  Build.replay [.property .i8 "mark", .intrinsic (.store "mark"), .invoke 0,
    .node "next", .select 1 [0x61] 1 0, .skipTo 1 1, .otherwise 0 1] {}

theorem built_marks : marks.Built :=
  Graph.Built.new.replay (by decide +kernel)

/-- The parser of the marks, begun where bytes are read. -/
def marksParser : Parser where
  symbolPrefix := "p"
  machine.states := #[
    { name := "p__n_next", nodeName := "next", kind := .single
      edges := [⟨some (.byte 0x61), 1, false, some 1⟩]
      otherwise := some (.otherwise 0 false) },
    { name := "p__n_invoke_store_mark", nodeName := "invoke_store_mark",
      kind := .invoke 0
      otherwise := some (.otherwise 0 true) }]
  machine.codes := #[⟨"p__c_store_mark", .store "mark"⟩]
  root := 0
  properties := [⟨.i8, "mark"⟩]
  resumable := [0]

theorem ofGraph_marks : ofGraph marks 1 "p" {} = .ok marksParser := by
  cbv

/-- Begun where bytes are read, a mark is always set to a value. -/
theorem values_assigned_marks : marksParser.ValuesAssigned := by
  refine (values_assigned_iff built_marks ofGraph_marks).mpr fun htakes => ?_
  obtain ⟨ref, hkind, _⟩ := htakes
  have hnext : (marks.node 1).kind = .dispatch none := by cbv
  rw [hnext] at hkind
  cases hkind

/-- The parser of the marks, begun where the mark is set. -/
def unmarkedParser : Parser where
  symbolPrefix := "p"
  machine.states := #[
    { name := "p__n_invoke_store_mark", nodeName := "invoke_store_mark",
      kind := .invoke 0
      otherwise := some (.otherwise 1 true) },
    { name := "p__n_next", nodeName := "next", kind := .single
      edges := [⟨some (.byte 0x61), 0, false, some 1⟩]
      otherwise := some (.otherwise 1 false) }]
  machine.codes := #[⟨"p__c_store_mark", .store "mark"⟩]
  root := 0
  properties := [⟨.i8, "mark"⟩]
  resumable := [0, 1]

theorem ofGraph_unmarked : ofGraph marks 0 "p" {} = .ok unmarkedParser := by
  cbv

/-- Compilation succeeds where the parser begins by setting a field to a value
that nothing has assigned. -/
theorem accepted_unassigned : ∃ g root artifact parser, g.Built
    ∧ Artifact.ofGraph g root "p" {} = .ok artifact
    ∧ ofGraph g root "p" {} = .ok parser
    ∧ ¬ parser.ValuesAssigned := by
  obtain ⟨artifact, hartifact⟩ :=
    Artifact.exists_of_program (by decide) ofGraph_unmarked (by cbv)
  refine ⟨marks, 0, artifact, unmarkedParser, built_marks, hartifact,
    ofGraph_unmarked, ?_⟩
  intro hall
  obtain ⟨_, _, _, _, _, hmatched⟩ :=
    hall silent [] [] unmarkedParser.init (restart unmarkedParser.init) .init
      .refl ⟨0, rfl, rfl⟩
  cases hmatched

end Parser

end Bytewise

/-
What calls of the parsers of graphs return.

A state stops with the code of the node that it stands for, and that code
is any number that the graph has given it. Zero is not refused: compilation
succeeds, and where the parser enters such an error or pause, the call
returns as if it had read its chunk.
-/
import Bytewise.Proofs.Artifact
import Bytewise.Proofs.Execution.Returns
import Bytewise.Proofs.Parser.Chunking
import Bytewise.Proofs.Parser.Pausing

namespace Bytewise

/-- The code that a node of the kind stops with. -/
def NodeKind.code? : NodeKind → Option Int32
  | .error code _ | .pause code _ => some code
  | _ => none

namespace Parser

variable {parser : Parser} {bp : Blueprint} {root : NodeId}
  {entry : NodeId → Option StateId} {l : Layout} {s : StateId} {code : Int32}

/-- A state stops with the code of a node that is reached. -/
theorem Image.exists_node_of_code (h : parser.Image bp root entry l)
    (hcode : (parser.machine.state s).kind.code? = some code) :
    ∃ n, bp.graph.Reaches root n ∧ (bp.graph.node n).kind.code?
        = some code := by
  have hlt : s < parser.machine.size := by
    refine Nat.lt_of_not_le fun hge => ?_
    rw [Machine.state_of_ge hge] at hcode
    cases hcode
  obtain ⟨role, -, hallowed, hrealizes⟩ := h.role_of_lt hlt
  refine ⟨role.node, hallowed.reached, ?_⟩
  have hfits := hrealizes.kindFits fun hreads => by
    cases hkind : (parser.machine.state s).kind
      <;> rw [hkind] at hreads hcode <;> trivial
  cases hkind : (parser.machine.state s).kind with
  | error own reason =>
      rw [hkind] at hcode hfits
      rw [show (bp.graph.node role.node).kind = .error own reason from hfits]
      exact hcode
  | pause own reason =>
      rw [hkind] at hcode hfits
      rw [show (bp.graph.node role.node).kind = .pause own reason from hfits]
      exact hcode
  | _ =>
      rw [hkind] at hcode
      cases hcode

/-- What the calls of a parser return tells what they have done if and only if
none of them stops with code zero, and none does if no node that is reached has
that code. Of the calls that begin without an error, those return zero that
have read their chunk, those that stop with code zero, and those of a parser
that has stopped for good. -/
theorem returns_tell_iff {g : Graph} {symbolPrefix : String}
    {options : Options} (hg : g.Built)
    (hok : ofGraph g root symbolPrefix options = .ok parser) :
    (parser.ReturnsTell ↔ parser.NeverStopsWithZero)
      ∧ ((∀ n, g.Reaches root n → (g.node n).kind.code? ≠ some 0) →
        parser.NeverStopsWithZero)
      ∧ ∀ host data chunk i path result data' i', parser.Session host data i →
        i.error = 0 → parser.Executes host data chunk i path result data' i' →
          (result = 0 ↔ parser.ReadChunk host data chunk i path i'
            ∨ (∃ s ∈ path, (parser.machine.state s).kind.code? = some 0)
                ∨ i.stopped = true) := by
  obtain ⟨spans, l, hspans, himage, -⟩ := image_of_ofGraph hg.sound hok
  have hdisciplined :=
    himage.disciplined hg.sound (hg.sound.endsChecked hspans)
    (hg.sound.slotsAllocated hspans)
  refine ⟨hdisciplined.returnsTell_iff, fun hnodes => ?_, ?_⟩
  · intro host data chunk i path result data' i' _ _ s _ hcode
    obtain ⟨n, hreach, hn⟩ := himage.exists_node_of_code hcode
    exact hnodes n hreach hn
  · intro host data chunk i path result data' i' hsession hclear h
    exact h.zero_iff hdisciplined (hsession.sound hdisciplined) hclear

/-- The holds pause with code one, so what their calls return tells what they
have done. -/
theorem returns_tell_holds : holdsParser.ReturnsTell := by
  obtain ⟨hiff, hnodes, -⟩ := returns_tell_iff built_holds ofGraph_holds
  have hcodes : ∀ n < holds.size, (holds.node n).kind.code? ≠ some 0 := by
    decide +kernel
  have hroot : 4 < holds.size := by decide +kernel
  exact hiff.mpr
    (hnodes fun n hreach =>
    hcodes n (built_holds.sound.reaches_lt hroot hreach))

/-- A byte is read, and then there is an error of code zero. -/
def quiet : Graph :=
  Build.replay [.node "read", .error 0 "done", .skipTo 0 1] {}

theorem built_quiet : quiet.Built :=
  Graph.Built.new.replay (by decide)

/-- The parser of the quiet error. -/
def quietParser : Parser where
  symbolPrefix := "p"
  machine.states := #[
    { name := "p__n_read", nodeName := "read", kind := .empty
      otherwise := some (.otherwise 1 false) },
    { name := "p__n_error", nodeName := "error", kind := .error 0 "done" }]
  root := 0
  resumable := [0]

theorem ofGraph_quiet : ofGraph quiet 0 "p" {} = .ok quietParser := by
  cbv

/-- Compilation succeeds where a call enters an error and returns zero. -/
theorem accepted_quiet : ∃ g root artifact parser, g.Built
    ∧ Artifact.ofGraph g root "p" {} = .ok artifact
    ∧ ofGraph g root "p" {} = .ok parser
    ∧ ¬ parser.ReturnsTell := by
  obtain ⟨artifact, hartifact⟩ :=
    Artifact.exists_of_program (by decide) ofGraph_quiet (by cbv)
  refine ⟨quiet, 0, artifact, quietParser, built_quiet, hartifact,
    ofGraph_quiet, fun hall => ?_⟩
  have hrun : quietParser.Passes silent [0x61]
      (restart quietParser.init) [0, 1]
      (.stops { (restart quietParser.init) with state := 1, position := 1 }
          0) :=
    .next rfl (.stops rfl)
  obtain ⟨-, hstops⟩ :=
    hall silent [] [0x61] _ _ _ _ _ .init ⟨rfl, rfl⟩
      (.runs ⟨rfl, rfl⟩ hrun (.errs rfl))
  obtain ⟨hnonzero, -⟩ := hstops ⟨1, by simp, Option.some_ne_none 0⟩
  exact hnonzero rfl

end Parser

end Bytewise

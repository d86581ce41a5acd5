/-
When a compilation has a result, and what it is made of.
-/
import Bytewise.Artifact
import Bytewise.Proofs.Except

namespace Bytewise.Artifact

variable {g : Graph} {root : NodeId} {symbolPrefix : String}
  {options : Options} {parser : Parser}

/-- Behind a parser only its program can fail. -/
theorem exists_of_program (hsymbol : Text.isIdentifier symbolPrefix = true)
    (hparser : Parser.ofGraph g root symbolPrefix options = .ok parser)
    (hprogram :
      (Program.ofParser parser options.debugHook options.headerName).isOk
      = true) :
    ∃ artifact, ofGraph g root symbolPrefix options = .ok artifact := by
  obtain ⟨program, hmade⟩ : ∃ program,
      Program.ofParser parser options.debugHook options.headerName
          = .ok program := by
    cases hmade : Program.ofParser parser options.debugHook
        options.headerName with
    | error cause =>
        rw [hmade] at hprogram
        cases hprogram
    | ok program => exact ⟨program, rfl⟩
  unfold ofGraph validatePrefix
  rw [if_pos hsymbol, hparser]
  simp only [bind, Except.bind, hmade]
  exact ⟨_, rfl⟩

/-- A graph whose parser has a program compiles. -/
theorem exists_of_made (hsymbol : Text.isIdentifier symbolPrefix = true)
    (hmade : (Parser.ofGraph g root symbolPrefix options >>= fun parser =>
      Program.ofParser parser options.debugHook options.headerName).isOk
        = true) :
    ∃ artifact, ofGraph g root symbolPrefix options = .ok artifact := by
  cases hparser : Parser.ofGraph g root symbolPrefix options with
  | error cause =>
      rw [hparser] at hmade
      cases hmade
  | ok parser =>
      rw [hparser] at hmade
      exact exists_of_program hsymbol hparser hmade

/-- A result is the program of the parser of the graph, as text, and the header
of that parser. -/
theorem parts_of_ofGraph {artifact : Artifact}
    (hok : ofGraph g root symbolPrefix options = .ok artifact) :
    Text.isIdentifier symbolPrefix = true ∧ ∃ parser program,
      Parser.ofGraph g root symbolPrefix options = .ok parser
        ∧ Program.ofParser parser options.debugHook options.headerName
          = .ok program
        ∧ artifact.source = program.render
        ∧ artifact.header = Program.header symbolPrefix parser.properties
            parser.slots := by
  obtain ⟨⟨⟩, hsymbol, hrest⟩ := ok_of_bind hok
  obtain ⟨parser, hparser, hrest⟩ := ok_of_bind hrest
  obtain ⟨program, hprogram, hrest⟩ := ok_of_bind hrest
  have hartifact := Except.ok.inj hrest
  refine ⟨?_, parser, program, hparser, hprogram, by rw [← hartifact], by
    rw [← hartifact]⟩
  unfold validatePrefix at hsymbol
  split at hsymbol
  · assumption
  · cases hsymbol

end Bytewise.Artifact

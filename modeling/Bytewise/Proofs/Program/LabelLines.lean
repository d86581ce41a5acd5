/-
The lines that define labels.

A label stands on a line of its own, in front of a block. The lines of a
body are moved to the right of it, and none of them looks like a label. So
of the whole run function the lines that define the label of a state are
those of its blocks, as long as no text that a body takes over breaks a
line.
-/
import Bytewise.Proofs.Parser.Names
import Bytewise.Proofs.Program.TableLines

namespace Bytewise

open Text

-- ========================================================== made names

namespace Parser

variable {parser : Parser} {g : Graph} {root : NodeId} {symbolPrefix : String}
  {options : Options}

/-- What is handed out under a stem that is a word is a word. -/
theorem isWord_of_handOut {stem fresh : String} (hstem : IsWord stem)
    {names : List String}
    (h : fresh ∈ (NameSupply.handOut { stem } names).1) : IsWord fresh := by
  obtain ⟨word, rfl, hword⟩ :=
    (NameSupply.unique_handOut stem names).words fresh h
  exact hstem.append hword

/-- The names of states and of intrinsics are words. -/
theorem isWord_of_ofGraph (hsymbol : isIdentifier symbolPrefix = true)
    (hok : ofGraph g root symbolPrefix options = .ok parser) :
    (∀ state ∈ parser.machine.states.toList, IsWord state.name)
      ∧ ∀ code ∈ parser.machine.intrinsics, IsWord code.name := by
  have hstem := isWord_of_isIdentifier hsymbol
  obtain ⟨hstates, asked, hcodes⟩ := supplied_of_ofGraph hok
  refine ⟨fun state hstate => ?_, fun code hcode => ?_⟩
  · have hname := List.mem_map_of_mem (f := (·.name)) hstate
    rw [hstates] at hname
    exact isWord_of_handOut (hstem.append (by decide)) hname
  · have hname := List.mem_map_of_mem (f := (·.name)) hcode
    rw [hcodes] at hname
    exact isWord_of_handOut (hstem.append (by decide)) hname

end Parser

namespace Program

variable {parser : Parser} {program : Program} {made : State}
  {debugHook headerName : Option String}

/-- A label is a word if the names of states are. -/
theorem isWord_stateLabel
    (h : ∀ state ∈ parser.machine.states.toList, IsWord state.name)
    (hok : ofParser parser debugHook headerName = .ok program) (s : StateId) :
    IsWord (program.stateLabel s) := by
  refine IsWord.append (by decide) ?_
  rw [(states_of_ofParser hok).2.2, Array.getD_eq_getD_getElem?,
    Array.getElem?_map]
  cases hstate : parser.machine.states[s]? with
  | none => exact (by decide)
  | some state =>
      exact h state (Array.mem_toList_iff.mpr (Array.mem_of_getElem? hstate))

-- ====================================================== bodies

/-- The texts that the bodies of a program take over as they are. -/
def bodyTexts (program : Program) : List String :=
  program.states.flatMap (·.body.flatMap fun stmt => stmt.texts ++ stmt.fields)

/-- What the bodies of a program take over breaks no line. -/
structure Unbroken (program : Program) : Prop where
  labels : ∀ s, IsWord (program.stateLabel s)
  texts : ∀ text ∈ program.bodyTexts, IsLine text

/-- The lines of a table that is declared are inside of bodies. -/
theorem inside_declareTable (entries : List UInt8) :
    ∀ line ∈ linesOf (joinLines (program.stmtLines (.declareTable entries))),
      Inside line := by
  have hlines : linesOf (joinLines (program.stmtLines (.declareTable entries)))
      = "static uint8_t lookup_table[] = \x7b"
        :: ((tableRows 16 (entries.map fun entry =>
          toString entry.toNat)).splitOn "\n" ++ ["\x7d;"]) := by
    have h := program.linesOf_declareTable entries (List.forall_mem_nil IsLine)
    rwa [List.append_nil] at h
  rw [hlines, List.forall_mem_cons, List.forall_mem_append,
    List.forall_mem_singleton]
  refine ⟨by decide, fun line hrow => ?_, by decide⟩
  refine ⟨(isLine_of_mem_rows hrow).1, fun hlabel => ?_⟩
  exact notMem_of_mem_rows (by decide) (by decide) (by decide) hrow
    (List.mem_of_getLast? hlabel.2)

/-- All lines of a body are inside of it. -/
theorem Unbroken.inside (h : program.Unbroken)
    (hmade : made ∈ program.states) :
    ∀ line ∈ linesOf (program.bodyText made), Inside line := by
  intro line hline
  rw [bodyText, linesOf_joinLines_flatMap] at hline
  obtain ⟨stmt, hstmt, hline⟩ := List.mem_flatMap.mp hline
  have htexts : ∀ text ∈ stmt.texts ++ stmt.fields, IsLine text :=
    fun text htext => h.texts text (List.mem_flatMap.mpr
      ⟨made, hmade, List.mem_flatMap.mpr ⟨stmt, hstmt, htext⟩⟩)
  by_cases htable : ∃ entries, stmt = .declareTable entries
  · obtain ⟨entries, rfl⟩ := htable
    exact inside_declareTable entries line hline
  · have hinside := inside_of_mem_stmtLines h.labels
      (List.forall_mem_append.mp htexts).1 (List.forall_mem_append.mp htexts).2
      fun entries heq => htable ⟨entries, heq⟩
    rw [linesOf_joinLines fun line hline => (hinside line hline).1.1] at hline
    exact hinside line hline

-- ====================================================== blocks

end Program

end Bytewise

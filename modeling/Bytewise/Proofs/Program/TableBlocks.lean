/-
The block of a state that looks bytes up, read back off the source.

A block stands in the source behind the label of its state. It begins with
what the debug hook is told, and what is behind that reads as a table, as
comparisons of the vector unit and as a dispatch (`Prints`). The constants
that the comparisons load are read off the source as well, under the names
that the comparisons have for them.
-/
import Bytewise.Proofs.Program.TableLines
import Bytewise.Proofs.Program.Tables

namespace Bytewise

namespace Program

open Text

variable {parser : Parser} {program : Program} {code : State}

-- ====================================================== blocks

/-- The block of a state is part of the program. -/
theorem exists_blockLines (h : code ∈ program.states) : ∃ above below,
    program.lines = above ++ program.blockLines code ++ below := by
  have hrun : ∃ above below,
      program.runLines = above ++ program.blockLines code ++ below := by
    cases hresumable : code.resumable with
    | true =>
        have hmem : code ∈ program.cases := List.mem_filter.mpr ⟨h, hresumable⟩
        obtain ⟨before, after, hcases⟩ := List.append_of_mem hmem
        refine ⟨program.dispatchLines ++ before.flatMap program.blockLines,
          after.flatMap program.blockLines ++ stoppedLines
            ++ program.others.flatMap program.blockLines ++ ["\x7d", ""], ?_⟩
        rw [runLines, hcases, List.flatMap_append, List.flatMap_cons]
        simp only [List.append_assoc]
    | false =>
        have hmem : code ∈ program.others :=
          List.mem_filter.mpr ⟨h, by simp [hresumable]⟩
        obtain ⟨before, after, hothers⟩ := List.append_of_mem hmem
        refine ⟨program.dispatchLines
          ++ program.cases.flatMap program.blockLines ++ stoppedLines
            ++ before.flatMap program.blockLines,
          after.flatMap program.blockLines ++ ["\x7d", ""], ?_⟩
        rw [runLines, hothers, List.flatMap_append, List.flatMap_cons]
        simp only [List.append_assoc]
  obtain ⟨above, below, hrun⟩ := hrun
  refine ⟨program.preamble ++ program.debugHookLines ++ program.blobsLines
    ++ program.matchersLines ++ program.stateEnumLines
    ++ program.functionsLines ++ program.initLines ++ above,
    below ++ program.executeLines, ?_⟩
  rw [lines, hrun]
  simp only [List.append_assoc]

/-- A block has the label of its state, its body and a line that closes it. -/
theorem blockLines_eq (program : Program) (code : State) :
    ∃ above indent below inner, IsBlank indent ∧ IsBlank inner
      ∧ program.blockLines code
        = above ++ (indent ++ program.stateLabel code.id ++ ": \x7b")
          :: (indentText inner (program.bodyText code)
            ++ (inner ++ "UNREACHABLE;") :: below) := by
  unfold blockLines
  cases code.resumable with
  | true =>
      exact ⟨["    case " ++ program.stateLabel code.id ++ ":"], "    ",
        ["    \x7d"], "      ", by simp [IsBlank], by simp [IsBlank],
        by simp⟩
  | false =>
      exact ⟨[], "  ", ["  \x7d"], "    ", by simp [IsBlank],
        by simp [IsBlank], by simp⟩

/-- If the label is a line and the end of a body are lines, they are read
off the block. -/
theorem linesOf_blockLines (hlabel : IsLine (program.stateLabel code.id))
    {traces body : List String}
    (hbody : code.body.flatMap program.stmtLines = traces ++ body)
    (hlines : ∀ line ∈ linesOf (joinLines body), IsLine line) :
    ∃ above moved below,
      (linesOf (joinLines (program.blockLines code))).map trimmed
        = above ++ (program.stateLabel code.id ++ ": \x7b")
          :: (moved ++ (linesOf (joinLines body)).map trimmed
            ++ "UNREACHABLE;" :: below)
      ∧ (traces = [] → moved = []) := by
  obtain ⟨above, indent, below, inner, hindent, hinner, hblock⟩ :=
    program.blockLines_eq code
  have hopen : trimmed (indent ++ program.stateLabel code.id ++ ": \x7b")
      = program.stateLabel code.id ++ ": \x7b" := by
    rw [String.append_assoc, trimmed_append hindent, stateLabel,
      String.append_assoc, trimmed_eq (by simp)]
  have hclose : trimmed (inner ++ "UNREACHABLE;") = "UNREACHABLE;" := by
    rw [trimmed_append hinner]
    decide
  have hsplit : (indent ++ program.stateLabel code.id ++ ": \x7b").splitOn "\n"
        = [indent ++ program.stateLabel code.id ++ ": \x7b"]
      ∧ (inner ++ "UNREACHABLE;").splitOn "\n" = [inner ++ "UNREACHABLE;"] :=
    ⟨splitOn_line ((hindent.isLine.append hlabel).append (by decide)).1,
      splitOn_line (hinner.isLine.append (by decide)).1⟩
  refine ⟨(linesOf (joinLines above)).map trimmed,
    (linesOf (joinLines (indentText inner (joinLines traces)))).map trimmed,
    (linesOf (joinLines below)).map trimmed, ?_, ?_⟩
  · rw [hblock, bodyText, hbody, indentText_joinLines_append,
      linesOf_joinLines_append, linesOf_joinLines_cons,
      linesOf_joinLines_append, linesOf_joinLines_append,
      linesOf_joinLines_cons, hsplit.1, hsplit.2]
    simp only [List.map_append, List.map_cons,
      List.singleton_append, List.append_assoc, hopen, hclose,
      trimmed_indentText hinner hlines]
  · rintro rfl
    rw [indentText_nil]
    exact congrArg (List.map trimmed) linesOf_nil

-- ====================================================== constants

/-- What a comparison loads is read back off the constants. -/
theorem load?_printedComparison (own : StateId) {chunk : List UInt8}
    (h : chunkBlob chunk ∈ program.blobs) :
    (program.printedComparison own chunk).load?
        (linesOf (joinLines program.blobsLines))
      = some ((chunkBlob chunk).bytes, chunk.length) := by
  have hbytes : ((chunkBlob chunk).bytes.map (·.toNat)).map UInt8.ofNat
      = (chunkBlob chunk).bytes := by
    rw [List.map_map]
    exact (List.map_congr_left fun b _ => UInt8.ofNat_toNat).trans
      (List.map_id _)
  have hread := readConstant?_blobsLines h
  rw [PrintedComparison.load?, printedComparison]
  dsimp only
  rw [chunkBlob] at hbytes ⊢
  rw [hread, Option.map_some, hbytes]

/-- Comparisons with constants that are there come to what the chunks do. -/
theorem skip?_printedComparisons (own : StateId) (next : PrintedJump)
    {chunks : List (List UInt8)}
    (h : ∀ chunk ∈ chunks, chunkBlob chunk ∈ program.blobs)
    (input : List UInt8) :
    (⟨chunks.map (program.printedComparison own), next⟩ : PrintedVector).skip?
        (linesOf (joinLines program.blobsLines)) input
      = some (skip chunks input) := by
  have hloaded : (chunks.map (program.printedComparison own)).mapM
      (PrintedComparison.load? (linesOf (joinLines program.blobsLines)))
      = some (chunks.map fun chunk =>
        ((chunkBlob chunk).bytes, chunk.length)) := by
    induction chunks with
    | nil => rfl
    | cons chunk chunks ih =>
        obtain ⟨hchunk, hchunks⟩ := List.forall_mem_cons.mp h
        rw [List.map_cons, List.mapM_cons, load?_printedComparison own hchunk,
          ih hchunks]
        rfl
  rw [PrintedVector.skip?, hloaded]
  rfl

/-- The constants are part of the source. -/
theorem exists_blobsLines (program : Program) : ∃ above below,
    linesOf program.render
      = above ++ linesOf (joinLines program.blobsLines) ++ below := by
  refine ⟨linesOf (joinLines (program.preamble ++ program.debugHookLines)),
    linesOf (joinLines (program.matchersLines ++ (program.stateEnumLines
      ++ (program.functionsLines ++ (program.initLines
        ++ (program.runLines ++ program.executeLines)))))), ?_⟩
  rw [render, ← linesOf_joinLines_append, ← linesOf_joinLines_append, lines]
  simp only [List.append_assoc]

-- ====================================================== tables

/-- The source has, behind the label of a state and what the debug hook is
told, a table with these entries. What is printed sends every byte where
the entries and the edges of the state do, and falls back to `default`. The
comparisons that are printed before come to what those of the statements do
with the constants of the source, and go back to the state or on to
`default` as well. -/
structure Prints (parser : Parser) (program : Program) (code : State)
    (entries : List UInt8) (skips : List Stmt) (default : Jump)
    (table : PrintedTable) : Prop where
  block : ∃ above traces block below,
    (linesOf program.render).map trimmed
        = above ++ (program.stateLabel code.id ++ ": \x7b")
          :: (traces ++ block ++ "UNREACHABLE;" :: below)
      ∧ (program.debugHook = none → traces = [])
      ∧ readTable? block = some table
  rows : table.entries = entries.map (·.toNat)
  wait : table.wait = program.stateLabel code.id
  value : table.switch.value = "lookup_table[(uint8_t) "
    ++ (parser.machine.state code.id).effectiveTransform.render "*p" ++ "]"
  jump : ∀ b, table.jump b = program.printed (tableJump entries
    ((parser.machine.state code.id).edges.map takeEdge) default b)
  scalar : skips = [] → table.vector = none
  vector : ∀ chunks, skips = [.skipRanges code.id chunks default] →
    ∃ vector, table.vector = some vector
      ∧ vector.next = program.printed default
      ∧ (∀ comparison ∈ vector.comparisons,
        comparison.label = program.stateLabel code.id)
      ∧ ∃ above constants below,
        linesOf program.render = above ++ constants ++ below
        ∧ ∀ input, vector.skip? constants input = some (skip chunks input)

/-- A body that looks bytes up is printed so. -/
theorem prints_of_looksUp {entries : List UInt8} {skips : List Stmt}
    {default : Jump} (h : LooksUp parser program code entries skips default)
    (hcode : code ∈ program.states)
    (hlabels : ∀ s, IsWord (program.stateLabel s))
    (htraces : program.debugHook = none →
      ∀ stmt ∈ code.body, ∀ hook message, stmt ≠ .trace hook message) :
    ∃ table, Prints parser program code entries skips default table := by
  have hskips : skips = [] ∨ ∃ own chunks default,
      skips = [.skipRanges own chunks default] :=
    h.skipped.imp_right fun ⟨chunks, hskips, _⟩ => ⟨_, chunks, _, hskips⟩
  obtain ⟨traces, htrace, hbody⟩ := h.body
  obtain ⟨hlines, hread⟩ :=
    readTable?_lookupBody hlabels code.id entries hskips
    (parser.machine.state code.id).effectiveTransform
    ((parser.machine.state code.id).edges.map takeEdge) default
  obtain ⟨above, moved, below, hblock, hmoved⟩ := linesOf_blockLines
    (hlabels code.id).isLine
    (by rw [hbody, List.flatMap_append]; rfl) hlines
  obtain ⟨before, after, hwhole⟩ := exists_blockLines hcode
  refine ⟨_, ⟨⟨(linesOf (joinLines before)).map trimmed ++ above, moved, _,
    below ++ (linesOf (joinLines after)).map trimmed, ?_, fun hnone => ?_,
    hread⟩, rfl, rfl, rfl, fun b => ?_, ?_, ?_⟩⟩
  · rw [render, hwhole, linesOf_joinLines_append, linesOf_joinLines_append,
      List.map_append, List.map_append, hblock]
    simp only [List.append_assoc, List.cons_append]
  · refine hmoved ?_
    cases traces with
    | nil => rfl
    | cons stmt traces =>
        obtain ⟨hook, message, hstmt⟩ := htrace stmt List.mem_cons_self
        exact absurd hstmt (htraces hnone stmt
          (by rw [hbody]; exact List.mem_cons_self) hook message)
  · have hentry : (entries.map (·.toNat)).getD b.toNat 0
        = entryAt entries b := by
      rw [entryAt, List.getD_eq_getElem?_getD, List.getElem?_map,
        List.getD_eq_getElem?_getD]
      cases entries[b.toNat]? <;> rfl
    rw [PrintedTable.jump]
    dsimp only
    rw [hentry, jump_printedSwitch]
    unfold tableJump
    cases entryAt entries b <;> rfl
  · rintro rfl
    rfl
  · rintro chunks rfl
    obtain ⟨chunks', hsame, hskip⟩ := h.skipped.resolve_left (by simp)
    obtain ⟨-, rfl, -⟩ := Stmt.skipRanges.inj (List.cons.inj hsame).1
    obtain ⟨above, below, hconstants⟩ := exists_blobsLines program
    refine ⟨_, rfl, rfl, ?_, above, _, below, hconstants,
      skip?_printedComparisons code.id _ fun chunk hchunk =>
        (hskip.constants chunk hchunk).2⟩
    intro comparison hcomparison
    obtain ⟨chunk, -, rfl⟩ := List.mem_map.mp hcomparison
    rfl

end Program

end Bytewise

/-
The table of a state, read back off its body.

The body of a state that looks bytes up is of lines, wherever it is moved.
What is read off them are the entries of the table, the comparisons of the
vector unit with the constants that they load, and the dispatch: they are
those of the statements.
-/
import Bytewise.Proofs.Program.BodyLines
import Bytewise.Proofs.Program.Constants
import Bytewise.Proofs.Program.Readers
import Bytewise.Proofs.Program.Ranges

namespace Bytewise

namespace Program

open Text

variable {program : Program}

-- ====================================================== tables

/-- What looks bytes up, as it is written. -/
structure PrintedTable where
  entries : List Nat
  /-- The label that is returned where no input is left. -/
  wait : String
  vector : Option PrintedVector
  switch : PrintedSwitch
deriving DecidableEq, Repr

/-- Reads a block of vector comparisons, if there is one. -/
def readSkips (lines : List String) : Option PrintedVector × List String :=
  match readVector? lines with
  | some (vector, rest) => (some vector, rest)
  | none => (none, lines)

/-- Reads what looks bytes up. -/
def readTable? : List String → Option PrintedTable
  | "static uint8_t lookup_table[] = \x7b" :: lines => do
    let entries ← readRows? (lines.takeWhile (· != "\x7d;"))
    match lines.dropWhile (· != "\x7d;") with
    | "\x7d;" :: "if (p == endp) \x7b" :: back :: "\x7d" :: rest =>
      let wait ← between? "return " ";" back
      let switch ← readSwitch? (readSkips rest).2
      return ⟨entries, wait, (readSkips rest).1, switch⟩
    | _ => none
  | _ => none

/-- The jump that a table sends a byte to, as they are written. -/
def PrintedTable.jump (table : PrintedTable) (b : UInt8) : PrintedJump :=
  table.switch.jump (table.entries.getD b.toNat 0)

/-- The constant that a comparison loads, and how many of its bytes count. -/
def PrintedComparison.load? (constants : List String)
    (comparison : PrintedComparison) : Option (List UInt8 × Nat) :=
  (readConstant? constants comparison.constant).map fun bytes =>
    (bytes.map UInt8.ofNat, comparison.length)

/-- What comparisons come to, with the constants that they load. -/
def PrintedVector.skip? (constants : List String) (vector : PrintedVector)
    (input : List UInt8) : Option Skip :=
  (vector.comparisons.mapM (PrintedComparison.load? constants)).map
    (skipLoaded · input)

/-- A block of comparisons begins with a line for the preprocessor. -/
theorem readVector?_eq_none {line : String} (lines : List String)
    (h : line.toList.head? ≠ some '#') :
    readVector? (line :: lines) = none := by
  unfold readVector?
  split
  · rename_i heq
    exact absurd (by rw [(List.cons.inj heq).1]; rfl) h
  · rfl

/-- The rows of the table that is declared are of numbers alone. -/
theorem notMem_of_mem_rows {entries : List UInt8} {c : Char}
    (hc : isWordChar c = false) (hblank : c ≠ ' ') (hcomma : c ≠ ',')
    {line : String} (h : line ∈ (tableRows 16 (entries.map fun entry =>
      toString entry.toNat)).splitOn "\n") : c ∉ line.toList := by
  have hdigits : ∀ c, isWordChar c = false →
      ∀ item ∈ entries.map (fun entry => toString entry.toNat),
        c ∉ item.toList := by
    intro c hc item hitem hmem
    obtain ⟨entry, -, rfl⟩ := List.mem_map.mp hitem
    rw [isWord_toString _ c hmem] at hc
    cases hc
  exact notMem_of_mem_tableRows (by decide) (hdigits '\n' (by decide)) hblank
    hcomma (hdigits c hc) h

/-- They are lines, none of which looks like the one that ends the table. -/
theorem isLine_of_mem_rows {entries : List UInt8} {line : String}
    (h : line ∈ (tableRows 16 (entries.map fun entry =>
      toString entry.toNat)).splitOn "\n") :
    IsLine line ∧ '\x7d' ∉ line.toList :=
  ⟨⟨notMem_of_mem_rows (by decide) (by decide) (by decide) h,
    notMem_of_mem_rows (by decide) (by decide) (by decide) h⟩,
    notMem_of_mem_rows (by decide) (by decide) (by decide) h⟩

/-- The rows of the table that is declared are read back. -/
theorem readRows?_rows (entries : List UInt8) :
    readRows? ((tableRows 16 (entries.map fun entry =>
      toString entry.toNat)).splitOn "\n") = some (entries.map (·.toNat)) := by
  refine readRows?_tableRows (by decide) ?_ fun item hitem => ?_
  · rw [List.forall₂_map_left_iff, List.forall₂_map_right_iff,
      List.forall₂_same]
    exact fun entry _ => reads_toString entry.toNat
  · obtain ⟨entry, -, rfl⟩ := List.mem_map.mp hitem
    exact (isWord_toString _).isLine.1

/-- The lines of a table that is declared, with others behind them. -/
theorem linesOf_declareTable (entries : List UInt8) {lines : List String}
    (h : ∀ line ∈ lines, IsLine line) :
    linesOf (joinLines (program.stmtLines (.declareTable entries) ++ lines))
      = "static uint8_t lookup_table[] = \x7b"
        :: ((tableRows 16 (entries.map fun entry =>
          toString entry.toNat)).splitOn "\n" ++ "\x7d;" :: lines) := by
  rw [linesOf_joinLines_append, linesOf_joinLines fun line hline =>
    (h line hline).1]
  have hopen : "static uint8_t lookup_table[] = \x7b".splitOn "\n"
      = ["static uint8_t lookup_table[] = \x7b"] := splitOn_line (by decide)
  have hclose : "\x7d;".splitOn "\n" = ["\x7d;"] := splitOn_line (by decide)
  rw [stmtLines, linesOf_joinLines_cons, linesOf_joinLines_cons,
    linesOf_joinLines_cons, hopen, hclose]
  have hnil : linesOf (joinLines []) = [] := linesOf_nil
  rw [hnil]
  simp

/-- How statements that skip by vector are written: none of them, or one. -/
def printedVector? (program : Program) : List Stmt → Option PrintedVector
  | .skipRanges own chunks default :: _ =>
    some ⟨chunks.map (program.printedComparison own), program.printed default⟩
  | _ => none

/-- The statements behind a table that is looked up. -/
def lookupBody (own : StateId) (entries : List UInt8) (skips : List Stmt)
    (transform : Transform) (cases : List Jump) (default : Jump) : List Stmt :=
  [.declareTable entries, .waitForInput own] ++ skips
    ++ [.onEntry transform cases default]

/-- Statements that skip by vector are read back, if there are some, in front
of a dispatch. -/
theorem readSkips_stmtLines (program : Program) {skips : List Stmt}
    (hskips : skips = [] ∨ ∃ own chunks default,
      skips = [.skipRanges own chunks default])
    (transform : Transform) (cases : List Jump) (default : Jump) :
    readSkips ((skips.flatMap program.stmtLines).map trimmed
        ++ (program.stmtLines (.onEntry transform cases default)).map trimmed)
      = (program.printedVector? skips,
        (program.stmtLines (.onEntry transform cases default)).map
            trimmed) := by
  rcases hskips with rfl | ⟨own, chunks, default, rfl⟩
  · have hopen : trimmed ("switch (lookup_table[(uint8_t) "
        ++ transform.render "*p" ++ "]) \x7b")
        = "switch (lookup_table[(uint8_t) "
          ++ transform.render "*p" ++ "]) \x7b" := by
      cases transform <;> decide
    have hnone : readVector? ((program.stmtLines
        (.onEntry transform cases default)).map trimmed) = none := by
      rw [stmtLines, List.append_assoc, List.append_assoc,
        List.singleton_append,
        List.map_cons, hopen]
      exact readVector?_eq_none _ (by simp)
    rw [List.flatMap_nil, List.map_nil, List.nil_append, readSkips, hnone]
    rfl
  · rw [List.flatMap_singleton, readSkips, readVector?_stmtLines]
    rfl

/-- A table is read back off its rows, in front of what skips and of a
dispatch. -/
theorem readTable?_rows (entries : List UInt8) (label : String)
    (rest : List String) :
    readTable? ("static uint8_t lookup_table[] = \x7b"
      :: (((tableRows 16 (entries.map fun entry =>
        toString entry.toNat)).splitOn "\n").map trimmed
        ++ "\x7d;" :: "if (p == endp) \x7b"
          :: ("return " ++ label ++ ";") :: "\x7d" :: rest))
      = (readSwitch? (readSkips rest).2).map fun switch =>
        ⟨entries.map (·.toNat), label, (readSkips rest).1, switch⟩ := by
  have hread := readRows?_rows entries
  have hend : ∀ line ∈ ((tableRows 16 (entries.map fun entry =>
      toString entry.toNat)).splitOn "\n").map trimmed,
      (line != "\x7d;") = true := by
    intro line hline
    obtain ⟨row, hrow, rfl⟩ := List.mem_map.mp hline
    refine bne_iff_ne.mpr fun heq => (isLine_of_mem_rows hrow).2 ?_
    refine List.dropWhile_subset (· == ' ') ?_
    have hchars := congrArg String.toList heq
    rw [trimmed, String.toList_ofList] at hchars
    rw [hchars]
    decide
  have hnone : ("\x7d;" != "\x7d;") = false := by simp
  simp only [readTable?, List.takeWhile_append_of_pos hend,
    List.dropWhile_append_of_pos hend, List.takeWhile_cons, hnone,
    List.dropWhile_cons, Bool.false_eq_true, if_false, List.append_nil,
    readRows?_trimmed, hread, between?_append]
  cases readSwitch? (readSkips rest).2 <;> rfl

section body

variable (hlabels : ∀ s, IsWord (program.stateLabel s))
include hlabels

/-- Behind its table, every line of a body that looks bytes up is one. -/
theorem isLine_lookupBody (own : StateId) {skips : List Stmt}
    (hskips : skips = [] ∨ ∃ own chunks default,
      skips = [.skipRanges own chunks default])
    (transform : Transform) (cases : List Jump) (default : Jump) :
    ∀ line ∈ program.stmtLines (.waitForInput own)
      ++ (skips.flatMap program.stmtLines
        ++ program.stmtLines (.onEntry transform cases default)),
      IsLine line := by
  have hplain : ∀ {stmt : Stmt}, stmt.texts = [] → stmt.fields = [] →
      (∀ entries, stmt ≠ .declareTable entries) →
      ∀ line ∈ program.stmtLines stmt, IsLine line :=
    fun htexts hfields hnot line hline => (inside_of_mem_stmtLines hlabels
      (by simp [htexts]) (by simp [hfields]) hnot line hline).1
  intro line hline
  rw [List.mem_append, List.mem_append] at hline
  rcases hline with hline | hline | hline
  · exact hplain rfl rfl (by simp) line hline
  · rcases hskips with rfl | ⟨own, chunks, default, rfl⟩
    · cases hline
    · rw [List.flatMap_singleton] at hline
      exact hplain rfl rfl (by simp) line hline
  · exact hplain rfl rfl (by simp) line hline

/-- A body that looks bytes up is read back off its lines. -/
theorem readTable?_lookupBody (own : StateId) (entries : List UInt8)
    {skips : List Stmt}
    (hskips : skips = [] ∨ ∃ own chunks default,
      skips = [.skipRanges own chunks default])
    (transform : Transform) (cases : List Jump) (default : Jump) :
    (∀ line ∈ linesOf (joinLines ((lookupBody own entries skips transform cases
      default).flatMap program.stmtLines)), IsLine line)
    ∧ readTable? ((linesOf (joinLines ((lookupBody own entries skips transform
        cases default).flatMap program.stmtLines))).map trimmed)
      = some ⟨entries.map (·.toNat), program.stateLabel own,
          program.printedVector? skips,
          program.printedSwitch transform cases default⟩ := by
  have hrest := isLine_lookupBody hlabels own hskips transform cases default
  have hwait : (program.stmtLines (.waitForInput own)).map trimmed
      = ["if (p == endp) \x7b",
        "return " ++ program.stateLabel own ++ ";", "\x7d"] := by
    have hback : trimmed ("  return " ++ program.stateLabel own ++ ";")
        = "return " ++ program.stateLabel own ++ ";" := by
      rw [String.append_assoc, trimmed_of_left (by decide),
        ← String.append_assoc]
      rfl
    have hfixed : trimmed "if (p == endp) \x7b" = "if (p == endp) \x7b"
        ∧ trimmed "\x7d" = "\x7d" := by decide
    simp only [stmtLines, List.map_cons, List.map_nil, hback, hfixed]
  have hbody : (lookupBody own entries skips transform cases default).flatMap
      program.stmtLines = program.stmtLines (.declareTable entries)
        ++ (program.stmtLines (.waitForInput own)
          ++ (skips.flatMap program.stmtLines
            ++ program.stmtLines (.onEntry transform cases default))) := by
    simp [lookupBody]
  have hfixed : IsLine "static uint8_t lookup_table[] = \x7b" ∧ IsLine "\x7d;"
      ∧ trimmed "static uint8_t lookup_table[] = \x7b"
        = "static uint8_t lookup_table[] = \x7b"
      ∧ trimmed "\x7d;" = "\x7d;" := by decide
  obtain ⟨hopen, hclose, hopen', hclose'⟩ := hfixed
  rw [hbody, linesOf_declareTable entries hrest]
  refine ⟨fun line hline => ?_, ?_⟩
  · rw [List.mem_cons, List.mem_append, List.mem_cons] at hline
    rcases hline with rfl | hline | rfl | hline
    · exact hopen
    · exact (isLine_of_mem_rows hline).1
    · exact hclose
    · exact hrest line hline
  · rw [List.map_cons, List.map_append, List.map_cons, List.map_append,
      List.map_append, hopen', hclose', hwait]
    simp only [List.cons_append, List.nil_append, readTable?_rows,
      program.readSkips_stmtLines hskips, readSwitch?_stmtLines]
    rfl

end body

end Program

end Bytewise

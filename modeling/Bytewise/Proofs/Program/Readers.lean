/-
Printed jumps, vector comparisons and dispatches, read back.

Each reader takes lines without the blanks they start with, and hands on
what is behind the part that it has read. It knows every line of the part:
what is fixed has to be there word by word, and what is filled in is what
comes between. Parts of one sort that follow each other are read one in
front of any rest (`readMany_flatMap`).
-/
import Bytewise.Program.Printer
import Bytewise.Proofs.Text.Entries

namespace Bytewise

namespace Program

open Text

-- ====================================================== jumps

/-- A jump, as it is written. -/
structure PrintedJump where
  advance : Bool
  value : Option String
  label : String
deriving DecidableEq, Repr

/-- How a jump is written. -/
def printed (program : Program) (jump : Jump) : PrintedJump where
  advance := jump.advance
  value := jump.value.map fun value => toString value.toInt
  label := program.stateLabel jump.target

/-- Reads the store of a value, if there is one. -/
def readValue : List String → Option String × List String
  | line :: rest =>
    match between? "match = " ";" line with
    | some value => (some value, rest)
    | none => (none, line :: rest)
  | [] => (none, [])

/-- Reads a jump, and the lines behind it. -/
def readJump? (lines : List String) : Option (PrintedJump × List String) :=
  let (advance, lines) := match lines with
    | "p++;" :: rest => (true, rest)
    | lines => (false, lines)
  match readValue lines with
  | (value, line :: rest) =>
    (between? "goto " ";" line).map fun label =>
      (⟨advance, value, label⟩, rest)
  | (_, []) => none

variable {program : Program}

/-- Moved right, a jump is the same without the blanks. -/
theorem trimmed_jumpLines (program : Program) (jump : Jump) {indent : String}
    (hindent : ∀ c ∈ indent.toList, c = ' ') :
    (program.jumpLines indent jump).map trimmed = program.jumpLines ""
        jump := by
  have hgoto : trimmed
      (indent ++ "goto " ++ program.stateLabel jump.target ++ ";")
      = "" ++ "goto " ++ program.stateLabel jump.target ++ ";" := by
    rw [String.append_assoc, String.append_assoc, trimmed_append hindent,
      ← String.append_assoc, trimmed_eq (by simp)]
    rfl
  have hvalue : ∀ value : String,
      trimmed (indent ++ "match = " ++ value ++ ";")
      = "" ++ "match = " ++ value ++ ";" := by
    intro value
    rw [String.append_assoc, String.append_assoc, trimmed_append hindent,
      ← String.append_assoc, trimmed_eq (by simp)]
    rfl
  have hadvance : trimmed (indent ++ "p++;") = "" ++ "p++;" := by
    rw [trimmed_append hindent]
    decide
  unfold jumpLines
  cases jump.advance <;> cases jump.value <;> simp [hgoto, hvalue, hadvance]

/-- A jump is read back off its lines. -/
theorem readJump?_jumpLines (program : Program) (jump : Jump) {indent : String}
    (hindent : ∀ c ∈ indent.toList, c = ' ') (rest : List String) :
    readJump? ((program.jumpLines indent jump).map trimmed ++ rest)
      = some (program.printed jump, rest) := by
  have hnone : between? "match = " ";"
      ("goto " ++ program.stateLabel jump.target ++ ";") = none :=
    between?_eq_none (by simp) (by decide)
  have hlabel := between?_append "goto " (program.stateLabel jump.target) ";"
  have hread := fun value => between?_append "match = " value ";"
  have hstays : "goto " ++ program.stateLabel jump.target ++ ";" ≠ "p++;"
      ∧ ∀ value, "match = " ++ value ++ ";" ≠ "p++;" :=
    ⟨ne_of_head? (by simp), fun _ => ne_of_head? (by simp)⟩
  rw [program.trimmed_jumpLines jump hindent]
  unfold jumpLines printed
  cases jump.advance <;> cases jump.value <;>
    simp [readJump?, readValue, hnone, hlabel, hread, hstays]

-- ====================================================== comparisons

/-- A comparison with a constant, as it is written: the name of the
constant, how many of its bytes count, and the label gone back to. -/
structure PrintedComparison where
  constant : String
  length : Nat
  label : String
deriving DecidableEq, Repr

/-- Reads a comparison, and the lines behind it: it finds the first of the
next 16 bytes that does not lie in the ranges loaded, skips what is before
it, and goes back if that is something. -/
def readComparison? : List String → Option (PrintedComparison × List String)
  | load :: "" :: "/* Find first character that does not match `ranges` */"
      :: compare :: "input, 16," :: "_SIDD_UBYTE_OPS | _SIDD_CMP_RANGES |"
      :: "_SIDD_NEGATIVE_POLARITY);" :: "" :: "if (match_len != 0) \x7b"
      :: "p += match_len;" :: back :: "\x7d" :: rest => do
    let constant ← between? "ranges = _mm_loadu_si128((__m128i const*) "
      ");" load
    let length ← (between? "match_len = _mm_cmpestri(ranges, " ","
      compare).bind readNat?
    let label ← between? "goto " ";" back
    return (⟨constant, length, label⟩, rest)
  | _ => none

/-- How a comparison with a chunk of ranges is written. -/
def printedComparison (program : Program) (own : StateId)
    (chunk : List UInt8) :
    PrintedComparison where
  constant := program.blobName (chunkBlob chunk)
  length := chunk.length
  label := program.stateLabel own

/-- A comparison is read back off its lines. -/
theorem readComparison?_chunkLines (program : Program) (own : StateId)
    (chunk : List UInt8) (rest : List String) :
    readComparison? ((program.chunkLines own chunk).map trimmed ++ rest)
      = some (program.printedComparison own chunk, rest) := by
  have hload := trimmed_of_left
    (by decide : trimmed "  ranges = _mm_loadu_si128((__m128i const*) " ≠ "")
  have hcompare := trimmed_of_left
    (by decide : trimmed "  match_len = _mm_cmpestri(ranges, " ≠ "")
  have hback := trimmed_of_left (by decide : trimmed "    goto " ≠ "")
  have hfixed : trimmed "  ranges = _mm_loadu_si128((__m128i const*) "
        = "ranges = _mm_loadu_si128((__m128i const*) "
      ∧ trimmed "  match_len = _mm_cmpestri(ranges, "
        = "match_len = _mm_cmpestri(ranges, "
      ∧ trimmed "    goto " = "goto " := by decide
  have hothers :
      ["", "  /* Find first character that does not match `ranges` */"].map
      trimmed
      = ["", "/* Find first character that does not match `ranges` */"]
      ∧ ["      input, 16,", "      _SIDD_UBYTE_OPS | _SIDD_CMP_RANGES |",
        "        _SIDD_NEGATIVE_POLARITY);", "", "  if (match_len != 0) \x7b",
        "    p += match_len;"].map trimmed
        = ["input, 16,", "_SIDD_UBYTE_OPS | _SIDD_CMP_RANGES |",
          "_SIDD_NEGATIVE_POLARITY);", "", "if (match_len != 0) \x7b",
          "p += match_len;"]
      ∧ trimmed "  \x7d" = "\x7d" := by decide
  simp only [List.map_cons, List.map_nil, List.cons.injEq, and_true] at hothers
  simp only [chunkLines, List.map_cons, List.map_nil, hothers]
  simp only [String.append_assoc, hload, hcompare, hback, hfixed,
    List.cons_append, List.nil_append]
  simp only [← String.append_assoc, readComparison?, between?_append,
    Option.bind_some, readNat?_toString]
  rfl

-- ====================================================== several

/-- Reads items one after the other, as long as there is one. -/
def readMany {α : Type} (read? : List String → Option (α × List String))
    (lines : List String) : List α × List String :=
  match read? lines with
  | some (item, rest) =>
    if _h : rest.length < lines.length then
      ((item :: (readMany read? rest).1), (readMany read? rest).2)
    else ([], lines)
  | none => ([], lines)
termination_by lines.length

/-- Items that are read in front of anything are all read, up to where none
is. -/
theorem readMany_flatMap {α β : Type}
    {read? : List String → Option (α × List String)} {items : List β}
    {text : β → List String} {value : β → α}
    (hread : ∀ item ∈ items, text item ≠ []
      ∧ ∀ rest, read? (text item ++ rest) = some (value item, rest))
    {rest : List String} (hrest : read? rest = none) :
    readMany read? (items.flatMap text ++ rest) = (items.map value, rest) := by
  induction items with
  | nil =>
      rw [List.flatMap_nil, List.nil_append, readMany, hrest]
      rfl
  | cons item items ih =>
      obtain ⟨⟨hsome, hitem⟩, hitems⟩ := List.forall_mem_cons.mp hread
      have hlen := List.length_pos_iff.mpr hsome
      rw [List.flatMap_cons, List.append_assoc, readMany, hitem]
      dsimp only
      rw [dif_pos (by simp; omega), ih hitems]
      rfl

-- ====================================================== vectors

/-- What skips bytes by vector, as it is written. -/
structure PrintedVector where
  comparisons : List PrintedComparison
  /-- The jump that is taken if no comparison has found bytes to skip. -/
  next : PrintedJump
deriving DecidableEq, Repr

/-- Reads a block of vector comparisons, which is for where 16 bytes are
left, and the lines behind it. -/
def readVector? : List String → Option (PrintedVector × List String)
  | "#ifdef __SSE4_2__" :: "if (endp - p >= 16) \x7b" :: "__m128i ranges;"
      :: "__m128i input;" :: "int match_len;" :: "" :: "/* Load input */"
      :: "input = _mm_loadu_si128((__m128i const*) p);" :: lines =>
    match readJump? (readMany readComparison? lines).2 with
    | some (next, "\x7d" :: "#endif  /* __SSE4_2__ */" :: rest) =>
      some (⟨(readMany readComparison? lines).1, next⟩, rest)
    | _ => none
  | _ => none

/-- A comparison begins with the constant it loads. -/
theorem readComparison?_eq_none {line : String} (lines : List String)
    (h : line.toList.head? ≠ some 'r') :
    readComparison? (line :: lines) = none := by
  unfold readComparison?
  split
  · rename_i heq
    rw [← (List.cons.inj heq).1, between?_eq_none]
    · rfl
    · exact fun hsame => h (by rw [← hsame]; decide)
    · decide
  · rfl

/-- A jump does not begin as a comparison. -/
theorem readComparison?_jumpLines (program : Program) (jump : Jump)
    (rest : List String) :
    readComparison? ((program.jumpLines "  " jump).map trimmed ++ rest)
      = none := by
  rw [program.trimmed_jumpLines jump (by simp)]
  unfold jumpLines
  cases jump.advance <;> cases jump.value <;>
    exact readComparison?_eq_none _ (by simp)

/-- A block of vector comparisons is read back off its lines. -/
theorem readVector?_stmtLines (program : Program) (own : StateId)
    (chunks : List (List UInt8)) (default : Jump) (rest : List String) :
    readVector? ((program.stmtLines (.skipRanges own chunks default)).map
        trimmed ++ rest)
      = some (⟨chunks.map (program.printedComparison own),
        program.printed default⟩, rest) := by
  have hopen : ["#ifdef __SSE4_2__", "if (endp - p >= 16) \x7b",
      "  __m128i ranges;", "  __m128i input;", "  int match_len;", "",
      "  /* Load input */",
      "  input = _mm_loadu_si128((__m128i const*) p);"].map trimmed
      = ["#ifdef __SSE4_2__", "if (endp - p >= 16) \x7b", "__m128i ranges;",
        "__m128i input;", "int match_len;", "", "/* Load input */",
        "input = _mm_loadu_si128((__m128i const*) p);"] := by decide
  have hclose : ["\x7d", "#endif  /* __SSE4_2__ */"].map trimmed
      = ["\x7d", "#endif  /* __SSE4_2__ */"] := by decide
  have hmany : readMany readComparison?
      (chunks.flatMap (fun chunk => (program.chunkLines own chunk).map trimmed)
        ++ ((program.jumpLines "  " default).map trimmed
          ++ "\x7d" :: "#endif  /* __SSE4_2__ */" :: rest))
      = (chunks.map (program.printedComparison own),
        (program.jumpLines "  " default).map trimmed
          ++ "\x7d" :: "#endif  /* __SSE4_2__ */" :: rest) :=
    readMany_flatMap (fun chunk _ => ⟨by simp [chunkLines],
      program.readComparison?_chunkLines own chunk⟩)
      (program.readComparison?_jumpLines default _)
  have hjump := program.readJump?_jumpLines default
    (by simp : ∀ c ∈ "  ".toList, c = ' ')
    ("\x7d" :: "#endif  /* __SSE4_2__ */" :: rest)
  simp only [stmtLines, List.map_append, hopen, hclose, List.map_flatMap,
    List.append_assoc]
  simp only [List.cons_append, List.nil_append, readVector?, hmany, hjump]

-- ====================================================== dispatches

/-- A case, as it is written. -/
structure PrintedCase where
  label : String
  jump : PrintedJump
deriving DecidableEq, Repr

/-- Reads a case, and the lines behind it. -/
def readCase? : List String → Option (PrintedCase × List String)
  | head :: lines => do
    let label ← between? "case " ": \x7b" head
    match readJump? lines with
    | some (jump, "\x7d" :: rest) => some (⟨label, jump⟩, rest)
    | _ => none
  | [] => none

/-- A dispatch, as it is written. -/
structure PrintedSwitch where
  value : String
  cases : List PrintedCase
  default : PrintedJump
deriving DecidableEq, Repr

/-- Reads a dispatch. -/
def readSwitch? : List String → Option PrintedSwitch
  | head :: lines => do
    let value ← between? "switch (" ") \x7b" head
    match (readMany readCase? lines).2 with
    | "default: \x7b" :: rest =>
      match readJump? rest with
      | some (default, ["\x7d", "\x7d"]) =>
        some ⟨value, (readMany readCase? lines).1, default⟩
      | _ => none
    | _ => none
  | [] => none

/-- A case is read back off its lines. -/
theorem readCase?_caseLines (program : Program) (label : String) (jump : Jump)
    (rest : List String) :
    readCase? ((program.caseLines ("case " ++ label) jump).map trimmed ++ rest)
      = some (⟨label, program.printed jump⟩, rest) := by
  have hopen : trimmed ("  " ++ ("case " ++ label) ++ ": \x7b")
      = "case " ++ label ++ ": \x7b" := by
    rw [String.append_assoc, trimmed_append (by simp), trimmed_eq]
    simp
  have hclose : trimmed "  \x7d" = "\x7d" := by decide
  have hjump := program.readJump?_jumpLines jump
    (by simp : ∀ c ∈ "    ".toList, c = ' ') ("\x7d" :: rest)
  simp only [caseLines, List.map_append, List.map_cons, List.map_nil, hopen,
    hclose, List.append_assoc, List.cons_append, List.nil_append, readCase?,
    between?_append, hjump]
  rfl

/-- How the dispatch of a byte by its entry is written. -/
def printedSwitch (program : Program) (transform : Transform)
    (cases : List Jump) (default : Jump) : PrintedSwitch where
  value := "lookup_table[(uint8_t) " ++ transform.render "*p" ++ "]"
  cases := cases.zipIdx.map fun (jump, index) =>
    ⟨toString (index + 1), program.printed jump⟩
  default := program.printed default

/-- The jump that a dispatch takes on a value: that of the case labelled with
it, or the last one. -/
def PrintedSwitch.jump (switch : PrintedSwitch) (value : Nat) : PrintedJump :=
  match switch.cases.find? (·.label == toString value) with
  | some found => found.jump
  | none => switch.default

/-- A numbered item is found by its number. -/
theorem find?_zipIdx {α : Type} (items : List α) (start i : Nat) :
    (items.zipIdx start).find? (·.2 == start + i)
      = items[i]?.map fun item => (item, start + i) := by
  induction items generalizing start i with
  | nil => rfl
  | cons item items ih =>
      rw [List.zipIdx_cons]
      cases i with
      | zero => exact List.find?_cons_of_pos (by simp)
      | succ i =>
          rw [List.find?_cons_of_neg (by simp)]
          have hnext := ih (start + 1) i
          rw [Nat.add_assoc, Nat.add_comm 1 i] at hnext
          exact hnext

/-- Case `i` of the dispatch is for the value `i + 1`. -/
theorem jump_printedSwitch (program : Program) (transform : Transform)
    (cases : List Jump) (default : Jump) (value : Nat) :
    (program.printedSwitch transform cases default).jump value
      = program.printed (match value with
        | 0 => default
        | i + 1 => cases.getD i default) := by
  have hlabel : ∀ n : Nat, (toString n == toString value) = (n == value) := by
    intro n
    rw [Bool.eq_iff_iff, beq_iff_eq, beq_iff_eq]
    refine ⟨fun h => Option.some.inj ?_, congrArg toString⟩
    rw [← readNat?_toString n, h, readNat?_toString]
  unfold PrintedSwitch.jump printedSwitch
  simp only [List.find?_map, Function.comp_def, hlabel]
  cases value with
  | zero =>
      rw [List.find?_eq_none.mpr fun pair _ => by simp]
      rfl
  | succ i =>
      have hsucc : ∀ n : Nat, (n + 1 == i + 1) = (n == 0 + i) := by
        intro n
        rw [Bool.eq_iff_iff, beq_iff_eq, beq_iff_eq]
        omega
      simp only [hsucc, find?_zipIdx, List.getD_eq_getElem?_getD]
      cases cases[i]? <;> rfl

/-- A dispatch is read back off its lines. -/
theorem readSwitch?_stmtLines (program : Program) (transform : Transform)
    (cases : List Jump) (default : Jump) :
    readSwitch?
      ((program.stmtLines (.onEntry transform cases default)).map trimmed)
      = some (program.printedSwitch transform cases default) := by
  have hopen : trimmed
      ("switch (lookup_table[(uint8_t) " ++ transform.render "*p" ++ "]) \x7b")
      = "switch (" ++ ("lookup_table[(uint8_t) " ++ transform.render "*p"
          ++ "]") ++ ") \x7b" := by
    cases transform <;> decide
  have hdefault : (program.caseLines "default" default).map trimmed
      = "default: \x7b" :: ((program.jumpLines "    " default).map trimmed
        ++ ["\x7d"]) := by
    have hfixed : trimmed ("  " ++ "default" ++ ": \x7b") = "default: \x7b"
        ∧ trimmed "  \x7d" = "\x7d" := by decide
    simp only [caseLines, List.map_append, List.map_cons, List.map_nil, hfixed]
    rfl
  have hnone : readCase?
      ("default: \x7b" :: ((program.jumpLines "    " default).map trimmed
      ++ ["\x7d"] ++ ["\x7d"])) = none := by
    rw [readCase?, between?_eq_none (by decide) (by decide)]
    rfl
  have hcase : ∀ item : Jump × Nat,
      (program.caseLines ("case " ++ toString (item.2 + 1)) item.1).map trimmed
          ≠ []
        ∧ ∀ rest, readCase? ((program.caseLines
            ("case " ++ toString (item.2 + 1)) item.1).map trimmed ++ rest)
          = some (⟨toString (item.2 + 1), program.printed item.1⟩, rest) :=
    fun item =>
      ⟨by simp [caseLines], program.readCase?_caseLines _ item.1⟩
  have hmany : readMany readCase? ((cases.zipIdx.flatMap fun (jump, index) =>
        (program.caseLines ("case " ++ toString (index + 1)) jump).map trimmed)
      ++ "default: \x7b" :: ((program.jumpLines "    " default).map trimmed
        ++ ["\x7d"] ++ ["\x7d"]))
      = (cases.zipIdx.map fun (jump, index) =>
          ⟨toString (index + 1), program.printed jump⟩,
        "default: \x7b" :: ((program.jumpLines "    " default).map trimmed
          ++ ["\x7d"] ++ ["\x7d"])) :=
    readMany_flatMap (fun item _ => hcase item) hnone
  have hjump := program.readJump?_jumpLines default
    (by simp : ∀ c ∈ "    ".toList, c = ' ') ["\x7d", "\x7d"]
  have hclose : trimmed "\x7d" = "\x7d" := by decide
  simp only [stmtLines, List.map_append, List.map_cons, List.map_nil, hopen,
    hdefault, hclose, List.map_flatMap, List.append_assoc, List.cons_append,
      List.nil_append] at hmany ⊢
  simp only [readSwitch?, between?_append, hmany, hjump]
  rfl

end Program

end Bytewise

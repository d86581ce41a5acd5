/-
The lines of bodies.

Every statement is printed as lines: the names, numbers and quoted texts
that stand in them break none, if the texts that a statement takes over do
not. Such lines are moved right as they are. Moved or not, none of them
looks like the line that defines a label: what it begins with at the margin
is no label, or what it ends in is no block.
-/
import Bytewise.Proofs.Program.Accesses

namespace Bytewise

namespace Text

/-- A text of one line, which does not end in a carriage return either. -/
def IsLine (text : String) : Prop :=
  '\n' ∉ text.toList ∧ '\r' ∉ text.toList

instance (text : String) : Decidable (IsLine text) :=
  inferInstanceAs (Decidable (_ ∧ _))

/-- Lines joined end to end are a line. -/
theorem IsLine.append {left right : String} (hleft : IsLine left)
    (hright : IsLine right) : IsLine (left ++ right) := by
  unfold IsLine at *
  simp only [String.toList_append, List.mem_append, not_or]
  exact ⟨⟨hleft.1, hright.1⟩, hleft.2, hright.2⟩

theorem IsWord.isLine {text : String} (h : IsWord text) : IsLine text :=
  ⟨fun hmem => absurd (h _ hmem) (by decide),
    fun hmem => absurd (h _ hmem) (by decide)⟩

theorem IsBlank.isLine {text : String} (h : IsBlank text) : IsLine text :=
  ⟨fun hmem => absurd (h _ hmem) (by decide),
    fun hmem => absurd (h _ hmem) (by decide)⟩

end Text

namespace Program

open Text

-- ====================================================== moved lines

/-- A line without a carriage return stays as it is. -/
theorem dropReturn_eq {line : String} (h : '\r' ∉ line.toList) :
    dropReturn line = line := by
  unfold dropReturn
  split
  · rename_i rest hrest
    exact absurd (List.mem_reverse.mp (hrest ▸ List.mem_cons_self)) h
  · rfl

/-- A line that is moved right is still a line. -/
theorem isLine_indentLine {indent line : String} (hindent : IsBlank indent)
    (h : IsLine line) : IsLine (indentLine indent line) := by
  unfold indentLine
  split
  · decide
  · exact h
  · exact hindent.isLine.append h

/-- Without the blanks in front of it, a line that is moved right is the
same. -/
theorem trimmed_indentLine {indent : String} (hindent : IsBlank indent)
    (line : String) : trimmed (indentLine indent line) = trimmed line := by
  unfold indentLine
  split
  · rename_i hnil
    rw [← String.toList_eq_nil_iff.mp hnil]
  · rfl
  · exact trimmed_append hindent line

/-- The lines of a body that is moved right are, without the blanks in
front of them, those of the body. -/
theorem trimmed_indentText {indent : String} (hindent : IsBlank indent)
    {lines : List String}
    (h : ∀ line ∈ linesOf (joinLines lines), IsLine line) :
    (linesOf (joinLines (indentText indent (joinLines lines)))).map trimmed
      = (linesOf (joinLines lines)).map trimmed := by
  have hmoved : indentText indent (joinLines lines)
      = (linesOf (joinLines lines)).map (indentLine indent) := by
    rw [indentText_eq]
    refine List.map_congr_left fun line hline => ?_
    rw [dropReturn_eq (h line hline).2]
  have hlines : ∀ line ∈ (linesOf (joinLines lines)).map (indentLine indent),
      '\n' ∉ line.toList := by
    intro line hline
    obtain ⟨bare, hbare, rfl⟩ := List.mem_map.mp hline
    exact (isLine_indentLine hindent (h bare hbare)).1
  rw [hmoved, linesOf_joinLines hlines, List.map_map]
  exact List.map_congr_left fun line _ => trimmed_indentLine hindent line

variable {program : Program}

-- ====================================================== inside of bodies

/-- The line may define a label: what it begins with behind its blanks may be
one, and it opens a block. -/
def MayLabel (line : String) : Prop :=
  (trimmed line).toList.take 2 = ['s', '_']
    ∧ line.toList.getLast? = some '\x7b'

instance (line : String) : Decidable (MayLabel line) :=
  inferInstanceAs (Decidable (_ ∧ _))

/-- A line inside of a body: it is one, and defines no label. -/
def Inside (line : String) : Prop :=
  IsLine line ∧ ¬ MayLabel line

instance (line : String) : Decidable (Inside line) :=
  inferInstanceAs (Decidable (_ ∧ _))

/-- A line is inside of a body if it does not begin with a label. -/
theorem inside_of_start {left right : String} (hleft : IsLine left)
    (hright : IsLine right) (hlen : 2 ≤ (trimmed left).toList.length)
    (hfirst : (trimmed left).toList.take 2 ≠ ['s', '_']) :
    Inside (left ++ right) := by
  have hsome : trimmed left ≠ "" := by
    intro hnil
    simp [hnil] at hlen
  refine ⟨hleft.append hright, fun hlabel => hfirst ?_⟩
  rw [← hlabel.1, trimmed_of_left hsome, String.toList_append,
    List.take_append_of_le_length hlen]

/-- A line is inside of a body if it does not end in a block. -/
theorem inside_of_end {left right : String} (hleft : IsLine left)
    (hright : IsLine right) (hsome : right.toList ≠ [])
    (hlast : right.toList.getLast? ≠ some '\x7b') :
    Inside (left ++ right) := by
  refine ⟨hleft.append hright, fun hlabel => hlast ?_⟩
  rw [← hlabel.2, String.toList_append, List.getLast?_append_of_ne_nil _ hsome]

/-- Blanks in front of a line leave it inside. -/
theorem Inside.indent {indent line : String} (hindent : IsBlank indent)
    (h : Inside line) : Inside (indent ++ line) := by
  refine ⟨hindent.isLine.append h.1, fun hlabel => h.2 ⟨?_, ?_⟩⟩
  · rw [← hlabel.1, trimmed_append hindent]
  · have hsome : line.toList ≠ [] := by
      intro hnil
      have hstart := hlabel.1
      rw [trimmed_append hindent, String.toList_eq_nil_iff.mp hnil] at hstart
      exact absurd hstart (by decide)
    rw [← hlabel.2, String.toList_append,
      List.getLast?_append_of_ne_nil _ hsome]

theorem isLine_hexLiteral (code : Int32) : IsLine (hexLiteral code) := by
  have hdigits := (isWord_hexDigits code.toInt.natAbs).isLine
  unfold hexLiteral
  split
  · exact IsLine.append (by decide) hdigits
  · exact IsLine.append (by decide) hdigits

theorem isLine_stringLiteral (text : String) : IsLine (stringLiteral text) :=
  ⟨fun hmem => absurd (printable_stringLiteral text _ hmem) (by decide),
    fun hmem => absurd (printable_stringLiteral text _ hmem) (by decide)⟩

theorem isLine_byteLabel (b : UInt8) : IsLine (byteLabel b) := by
  have hall : ∀ n : Fin 256, IsLine (byteLabel (UInt8.ofNat n)) := by
    decide +kernel
  simpa using hall ⟨b.toNat, b.toNat_lt⟩

theorem isLine_int (value : Int) : IsLine (toString value) := by
  cases value with
  | ofNat n => exact (isWord_toString n).isLine
  | negSucc n =>
      exact IsLine.append (by decide : IsLine "-")
        (isWord_toString (n + 1)).isLine

/-- The line of a case of a dispatch is inside. -/
theorem inside_case {key : String} (h : IsLine key) :
    Inside ("case " ++ key ++ ": \x7b") := by
  rw [String.append_assoc]
  exact inside_of_start (by decide) (h.append (by decide)) (by decide)
    (by decide)

section statements

variable (hlabels : ∀ s, IsWord (program.stateLabel s))
include hlabels

theorem inside_jumpLines {indent : String} (hindent : IsBlank indent)
    (jump : Jump) : ∀ line ∈ program.jumpLines indent jump, Inside line := by
  have hadvance : Inside (indent ++ "p++;") :=
    inside_of_end hindent.isLine (by decide) (by decide) (by decide)
  have hgoto : Inside (indent ++ "goto "
      ++ program.stateLabel jump.target ++ ";") :=
    inside_of_end ((hindent.isLine.append (by decide)).append
      (hlabels jump.target).isLine) (by decide) (by decide) (by decide)
  have hvalue : ∀ value : Int,
      Inside (indent ++ "match = " ++ toString value ++ ";") := fun value =>
    inside_of_end ((hindent.isLine.append (by decide)).append
      (isLine_int value)) (by decide) (by decide) (by decide)
  unfold jumpLines
  cases jump.advance <;> cases jump.value <;>
    simp [hgoto, hadvance, -Int.toString_eq_repr, hvalue]

theorem inside_caseLines {label : String} (hlabel : Inside (label ++ ": \x7b"))
    (jump : Jump) : ∀ line ∈ program.caseLines label jump, Inside line := by
  have hopen : Inside ("  " ++ label ++ ": \x7b") := by
    rw [String.append_assoc]
    exact hlabel.indent (by simp [IsBlank])
  have hclose : Inside "  \x7d" := by decide
  have hjump := inside_jumpLines hlabels
    (by simp [IsBlank] : IsBlank "    ") jump
  intro line hline
  rw [caseLines, List.mem_append, List.mem_append, List.mem_singleton,
    List.mem_singleton] at hline
  rcases hline with (rfl | hline) | rfl
  · exact hopen
  · exact hjump line hline
  · exact hclose

theorem isLine_labelText (label : Label) :
    IsLine (program.labelText label) := by
  cases label with
  | error => exact (by decide : IsLine errorLabel)
  | state s => exact (hlabels s).isLine

/-- The store of a place to go on at is inside. -/
theorem inside_currentLine {indent : String} (hindent : IsBlank indent)
    (label : Label) : Inside (program.currentLine indent label) :=
  inside_of_end ((((hindent.isLine.append (by decide)).append
    (by decide)).append (by decide)).append (isLine_labelText hlabels label))
    (by decide) (by decide) (by decide)

theorem inside_return (indent : String) (hindent : IsBlank indent)
    (label : Label) :
    Inside (indent ++ "return " ++ program.labelText label ++ ";") :=
  inside_of_end ((hindent.isLine.append (by decide)).append
    (isLine_labelText hlabels label)) (by decide) (by decide) (by decide)

theorem inside_chunkLines (own : StateId) (chunk : List UInt8) :
    ∀ line ∈ program.chunkLines own chunk, Inside line := by
  have hname : IsLine (program.blobName (chunkBlob chunk)) :=
    IsLine.append (by decide) (isWord_toString _).isLine
  have hload : Inside ("  ranges = _mm_loadu_si128((__m128i const*) "
      ++ program.blobName (chunkBlob chunk) ++ ");") :=
    inside_of_end (IsLine.append (by decide) hname) (by decide) (by decide)
      (by decide)
  have hcompare : Inside ("  match_len = _mm_cmpestri(ranges, "
      ++ toString chunk.length ++ ",") :=
    inside_of_end (IsLine.append (by decide) (isWord_toString _).isLine)
      (by decide) (by decide) (by decide)
  have hback : Inside ("    goto " ++ program.stateLabel own ++ ";") :=
    inside_of_end (IsLine.append (by decide) (hlabels own).isLine)
      (by decide) (by decide) (by decide)
  have hfixed : ∀ line ∈ ["",
      "  /* Find first character that does not match `ranges` */",
      "      input, 16,", "      _SIDD_UBYTE_OPS | _SIDD_CMP_RANGES |",
      "        _SIDD_NEGATIVE_POLARITY);", "  if (match_len != 0) \x7b",
      "    p += match_len;", "  \x7d"], Inside line := by decide
  simp only [List.forall_mem_cons] at hfixed
  unfold chunkLines
  simp only [List.forall_mem_cons, hload, hcompare, hback, hfixed,
    List.not_mem_nil, false_implies, implies_true, and_self]

omit hlabels in
/-- The lines of cases are inside of bodies, between one that opens a
dispatch and one that closes it. -/
theorem inside_switch {α : Type} {head : String} (hhead : Inside head)
    {cases : List α} {text : α → List String}
    (hcases : ∀ x ∈ cases, ∀ line ∈ text x, Inside line)
    {default : List String} (hdefault : ∀ line ∈ default, Inside line) :
    ∀ line ∈ [head] ++ cases.flatMap text ++ default ++ ["\x7d"],
      Inside line := by
  have hclose : Inside "\x7d" := by decide
  intro line hline
  rw [List.mem_append, List.mem_append, List.mem_append, List.mem_flatMap,
    List.mem_singleton, List.mem_singleton] at hline
  rcases hline with ((rfl | ⟨x, hx, hline⟩) | hline) | rfl
  · exact hhead
  · exact hcases x hx line hline
  · exact hdefault line hline
  · exact hclose

theorem inside_call {callee : String} (hcallee : IsLine callee)
    (signature : Signature) (cases : List (Int32 × Jump)) (default : Jump) :
    ∀ line ∈ program.stmtLines (.call callee signature cases default),
      Inside line := by
  have harguments : IsLine (callArguments signature) := by
    cases signature <;> decide
  have hhead : Inside ("switch (" ++ callee ++ "(" ++ callArguments signature
      ++ ")) \x7b") := by
    simp only [String.append_assoc]
    exact inside_of_start (by decide) (hcallee.append
      (IsLine.append (by decide) (harguments.append (by decide))))
      (by decide) (by decide)
  have hjumps := inside_jumpLines hlabels
    (by simp [IsBlank] : IsBlank "    ")
  have hcase : ∀ (x : Int32 × Jump), Inside ("  case "
      ++ toString x.1.toInt ++ ":") := fun x =>
    inside_of_end (IsLine.append (by decide) (isLine_int _)) (by decide)
      (by decide) (by decide)
  have hdefault : Inside "  default:" := by decide
  rw [stmtLines, List.append_assoc _ ["  default:"]]
  refine inside_switch hhead (fun x _ => ?_) ?_
  · exact List.forall_mem_cons.mpr ⟨hcase x, hjumps x.2⟩
  · exact List.forall_mem_cons.mpr ⟨hdefault, hjumps default⟩

omit hlabels in
/-- A line that ends as a statement does is inside. -/
theorem inside_of_semicolon {left : String} (h : IsLine left) :
    Inside (left ++ ";") :=
  inside_of_end h (by decide) (by decide) (by decide)

omit hlabels in
/-- An error that is stored is quoted, and stays inside. -/
theorem inside_setError (code : Int32) (reason : String) :
    ∀ line ∈ program.stmtLines (.setError code reason), Inside line := by
  have hcode : Inside ("s->" ++ errorField ++ " = " ++ hexLiteral code
      ++ ";") :=
    inside_of_semicolon ((by decide : IsLine ("s->" ++ errorField
      ++ " = ")).append (isLine_hexLiteral code))
  have hreason : Inside ("s->" ++ reasonField ++ " = "
      ++ stringLiteral reason ++ ";") :=
    inside_of_semicolon ((by decide : IsLine ("s->" ++ reasonField
      ++ " = ")).append (isLine_stringLiteral reason))
  have hposition : Inside ("s->" ++ errorPosField
      ++ " = (const char*) p;") := by decide
  exact List.forall_mem_cons.mpr ⟨hcode, List.forall_mem_cons.mpr
    ⟨hreason, List.forall_mem_singleton.mpr hposition⟩⟩

omit hlabels in
/-- So is the call that compares with a literal. -/
theorem inside_matchLiteral (transform : Transform) (literal : Blob) :
    ∀ line ∈ program.stmtLines (.matchLiteral transform literal),
      Inside line := by
  have hname : IsLine (matcherName transform) := by
    cases transform <;> decide
  have hblob : IsLine (program.blobName literal) :=
    IsLine.append (by decide) (isWord_toString _).isLine
  have hhead : Inside ("match_seq = " ++ matcherName transform
      ++ "(s, p, endp, " ++ program.blobName literal ++ ", "
      ++ toString literal.bytes.length ++ ");") :=
    inside_of_end (((((IsLine.append (by decide) hname).append
      (by decide)).append hblob).append (by decide)).append
      (isWord_toString _).isLine) (by decide) (by decide) (by decide)
  exact List.forall_mem_cons.mpr
    ⟨hhead, List.forall_mem_singleton.mpr (by decide)⟩

/-- The outcomes of a comparison are told apart inside. -/
theorem inside_onOutcome (own : StateId) (complete mismatch : Jump) :
    ∀ line ∈ program.stmtLines (.onOutcome own complete mismatch),
      Inside line := by
  have hfixed : Inside "switch (match_seq.status) \x7b"
      ∧ Inside "  case kMatchPause: \x7b" ∧ Inside "  \x7d"
      ∧ Inside "\x7d" := by decide
  obtain ⟨hhead, hpause, hend, hclose⟩ := hfixed
  have hback := inside_return hlabels "    " (by simp [IsBlank]) (.state own)
  have hcomplete := inside_caseLines hlabels
    (by decide : Inside ("case kMatchComplete" ++ ": \x7b")) complete
  have hmismatch := inside_caseLines hlabels
    (by decide : Inside ("case kMatchMismatch" ++ ": \x7b")) mismatch
  intro line hline
  simp only [stmtLines, List.mem_append, List.mem_cons, List.not_mem_nil,
    or_false] at hline
  rcases hline with (((rfl | hline) | rfl | rfl | rfl) | hline) | rfl
  · exact hhead
  · exact hcomplete line hline
  · exact hpause
  · exact hback
  · exact hend
  · exact hmismatch line hline
  · exact hclose

/-- Skipping by vector stays inside. -/
theorem inside_skipRanges (own : StateId) (chunks : List (List UInt8))
    (default : Jump) :
    ∀ line ∈ program.stmtLines (.skipRanges own chunks default),
      Inside line := by
  have hload : ∀ line ∈ ["#ifdef __SSE4_2__", "if (endp - p >= 16) \x7b",
      "  __m128i ranges;", "  __m128i input;", "  int match_len;", "",
      "  /* Load input */",
      "  input = _mm_loadu_si128((__m128i const*) p);"], Inside line := by
    decide
  have hclose : ∀ line ∈ ["\x7d", "#endif  /* __SSE4_2__ */"],
      Inside line := by
    decide
  intro line hline
  rw [stmtLines, List.mem_append, List.mem_append, List.mem_append,
    List.mem_flatMap] at hline
  rcases hline with ((hline | ⟨chunk, -, hline⟩) | hline) | hline
  · exact hload line hline
  · exact inside_chunkLines hlabels own chunk line hline
  · exact inside_jumpLines hlabels (by simp [IsBlank]) default line hline
  · exact hclose line hline

/-- What is done on the error of a callback stays inside. -/
theorem inside_onSpanError (advance : Bool) (resume : StateId) :
    ∀ line ∈ program.stmtLines (.onSpanError advance resume),
      Inside line := by
  have hfixed : Inside "if (err != 0) \x7b"
      ∧ Inside ("  s->" ++ errorField ++ " = err;")
      ∧ Inside ("  s->" ++ errorPosField ++ " = (const char*) "
        ++ (if advance then "(p + 1)" else "p") ++ ";")
      ∧ Inside ("  return " ++ errorLabel ++ ";") ∧ Inside "\x7d" := by
    cases advance <;> decide
  have hcurrent := inside_currentLine hlabels
    (by simp [IsBlank] : IsBlank "  ") (.state resume)
  simp only [stmtLines, List.forall_mem_cons, hfixed, hcurrent,
    List.not_mem_nil, false_implies, implies_true, and_self]

/-- Skipping a number of bytes stays inside, if its field is a line. -/
theorem inside_skipAll {field : String} (hfield : IsLine field) (next : Jump) :
    ∀ line ∈ program.stmtLines (.skipAll field next), Inside line := by
  have hfixed : Inside "if (avail >= need) \x7b" ∧ Inside "  p += need;"
      ∧ Inside "\x7d" := by decide
  obtain ⟨hhead, hadvance, hclose⟩ := hfixed
  have hstore : Inside ("  s->" ++ field ++ " = 0;") :=
    inside_of_end (IsLine.append (by decide) hfield) (by decide) (by decide)
      (by decide)
  have hjump := inside_jumpLines hlabels
    (by simp [IsBlank] : IsBlank "  ") next
  intro line hline
  simp only [stmtLines, List.mem_append, List.mem_cons, List.not_mem_nil,
    or_false] at hline
  rcases hline with ((rfl | rfl | rfl) | hline) | rfl
  · exact hhead
  · exact hadvance
  · exact hstore
  · exact hjump line hline
  · exact hclose

/-- The lines of a statement that declares no table are inside of bodies, if
the texts and fields that it takes over are lines. -/
theorem inside_of_mem_stmtLines {stmt : Stmt}
    (htexts : ∀ text ∈ stmt.texts, IsLine text)
    (hfields : ∀ field ∈ stmt.fields, IsLine field)
    (hnot : ∀ entries, stmt ≠ .declareTable entries) :
    ∀ line ∈ program.stmtLines stmt, Inside line := by
  cases stmt with
  | blank => exact List.forall_mem_singleton.mpr (by decide)
  | declare type name =>
      exact List.forall_mem_singleton.mpr (inside_of_semicolon (((htexts type
        (by simp [Stmt.texts])).append (by decide)).append
        (htexts name (by simp [Stmt.texts]))))
  | trace hook message =>
      have hhook : Inside
          (hook ++ "(s, (const char*) p, (const char*) endp,") :=
        inside_of_end (htexts hook (by simp [Stmt.texts])) (by decide)
          (by decide) (by decide)
      have hmessage : Inside ("  " ++ stringLiteral message ++ ");") :=
        inside_of_end
          (IsLine.append (by decide) (isLine_stringLiteral message))
          (by decide) (by decide) (by decide)
      exact List.forall_mem_cons.mpr
        ⟨hhook, List.forall_mem_singleton.mpr hmessage⟩
  | waitForInput own =>
      have hback := inside_return hlabels "  " (by simp [IsBlank]) (.state own)
      have hfixed : Inside "if (p == endp) \x7b" ∧ Inside "\x7d" := by decide
      exact List.forall_mem_cons.mpr ⟨hfixed.1, List.forall_mem_cons.mpr
        ⟨hback, List.forall_mem_singleton.mpr hfixed.2⟩⟩
  | jump jump =>
      exact inside_jumpLines hlabels (by simp [IsBlank]) jump
  | leave label =>
      exact List.forall_mem_singleton.mpr
        (inside_return hlabels "" (by simp [IsBlank]) label)
  | setCurrent label =>
      exact List.forall_mem_singleton.mpr
        (inside_currentLine hlabels (by simp [IsBlank]) label)
  | setError code reason => exact inside_setError code reason
  | call callee signature cases default =>
      exact inside_call hlabels (htexts callee List.mem_cons_self) signature
        cases default
  | matchLiteral transform literal =>
      exact inside_matchLiteral transform literal
  | onOutcome own complete mismatch =>
      exact inside_onOutcome hlabels own complete mismatch
  | onByte transform cases default =>
      have hhead : Inside
          ("switch (" ++ transform.render "*p" ++ ") \x7b") := by
        cases transform <;> decide
      exact inside_switch hhead (fun x _ => inside_caseLines hlabels
        (inside_case (isLine_byteLabel x.1)) x.2)
        (inside_caseLines hlabels (by decide) default)
  | declareTable entries => exact absurd rfl (hnot entries)
  | skipRanges own chunks default =>
      exact inside_skipRanges hlabels own chunks default
  | onEntry transform cases default =>
      have hhead : Inside ("switch (lookup_table[(uint8_t) "
          ++ transform.render "*p" ++ "]) \x7b") := by
        cases transform <;> decide
      exact inside_switch hhead (fun x _ => inside_caseLines hlabels
        (inside_case (isWord_toString _).isLine) x.1)
        (inside_caseLines hlabels (by decide) default)
  | openSlot slot =>
      exact List.forall_mem_singleton.mpr (inside_of_end (IsLine.append
        (by decide) (IsLine.append (by decide) (isWord_toString _).isLine))
        (by decide) (by decide) (by decide))
  | setCallback slot callback =>
      have hfield : IsLine (callbackField slot) :=
        IsLine.append (by decide) (isWord_toString _).isLine
      exact List.forall_mem_singleton.mpr (inside_of_semicolon
        (((IsLine.append (by decide) hfield).append (by decide)).append
          (htexts callback List.mem_cons_self)))
  | closeSlot slot =>
      have hfield : IsLine (positionField slot) :=
        IsLine.append (by decide) (isWord_toString _).isLine
      have hstart := inside_of_semicolon (IsLine.append
        (by decide : IsLine "start = s->") hfield)
      have hclear : Inside ("s->" ++ positionField slot ++ " = NULL;") :=
        inside_of_end (IsLine.append (by decide) hfield) (by decide)
          (by decide) (by decide)
      exact List.forall_mem_cons.mpr
        ⟨hstart, List.forall_mem_singleton.mpr hclear⟩
  | callSpan callback =>
      exact List.forall_mem_singleton.mpr (inside_of_end (IsLine.append
        (by decide) (htexts callback List.mem_cons_self)) (by decide)
        (by decide) (by decide))
  | onSpanError advance resume =>
      exact inside_onSpanError hlabels advance resume
  | measure field =>
      have hneed := inside_of_semicolon (IsLine.append
        (by decide : IsLine "need = s->") (hfields field List.mem_cons_self))
      exact List.forall_mem_cons.mpr
        ⟨by decide, List.forall_mem_singleton.mpr hneed⟩
  | skipAll field next =>
      exact inside_skipAll hlabels (hfields field List.mem_cons_self) next
  | skipRest field =>
      exact List.forall_mem_singleton.mpr (inside_of_end (IsLine.append
        (by decide) (hfields field List.mem_cons_self)) (by decide)
        (by decide) (by decide))

end statements

end Program

end Bytewise

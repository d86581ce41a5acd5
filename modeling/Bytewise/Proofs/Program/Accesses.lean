/-
The fields that the lines of a source access.

Every line is taken apart into what is fixed and what is filled in. What is
filled in is a label, a number or the name of a field, all of them words, or
else a text that the line takes over as it is (`Stmt.texts`): the types of
variables, and the names of functions, which a user may have chosen. So a
line accesses the fields that its statement is listed with, and what reads
as an access within such a text.
-/
import Bytewise.Proofs.Program.Fields
import Bytewise.Proofs.Program.Lines
import Bytewise.Proofs.Text.Accesses

namespace Bytewise

namespace Text

-- ======================================================= quiet lines

/-- A text without the end of an arrow accesses nothing. -/
theorem accesses_of_quiet {text : String} (h : '>' ∉ text.toList) :
    accesses text = [] :=
  accessesFrom_eq_nil h false

theorem IsWord.accesses {text : String} (h : IsWord text) :
    accesses text = [] :=
  accesses_of_quiet h.arrow_notMem

/-- There is no end of an arrow in digits. -/
@[simp]
theorem arrow_notMem_toDigits (n : Nat) : '>' ∉ Nat.toDigits 10 n := by
  have h := (isWord_toString n).arrow_notMem
  rwa [Nat.toString_eq_repr, Nat.toList_repr] at h

@[simp]
theorem arrow_notMem_int_repr (n : Int) : '>' ∉ n.repr.toList := by
  cases n with
  | ofNat n =>
      show '>' ∉ (Nat.repr n).toList
      simp
  | negSucc n =>
      show '>' ∉ ("-" ++ Nat.repr (n + 1)).toList
      simp

/-- Spaces alone. -/
def IsBlank (indent : String) : Prop :=
  ∀ c ∈ indent.toList, c = ' '

/-- Blanks in front of a text access nothing. -/
theorem accesses_indent {indent : String} (h : IsBlank indent)
    (text : String) : accesses (indent ++ text) = accesses text := by
  unfold accesses
  unfold IsBlank at h
  rw [String.toList_append]
  generalize indent.toList = spaces at h
  induction spaces with
  | nil => rfl
  | cons c spaces ih =>
      obtain ⟨rfl, hrest⟩ := List.forall_mem_cons.mp h
      rw [← ih hrest, List.cons_append]
      exact accessesFrom_append (by decide) false [] _

/-- No byte reads as an access where it is a label of a case. -/
theorem accesses_byteLabel (b : UInt8) : accesses (byteLabel b) = [] := by
  have hall : ∀ n : Fin 256, accesses (byteLabel (UInt8.ofNat n)) = [] := by
    decide +kernel
  simpa using hall ⟨b.toNat, b.toNat_lt⟩

/-- The entry of a byte accesses nothing. -/
theorem accesses_byteEntry (b : UInt8) : accesses (byteEntry b) = [] := by
  have hall : ∀ n : Fin 256, accesses (byteEntry (UInt8.ofNat n)) = [] := by
    decide +kernel
  simpa using hall ⟨b.toNat, b.toNat_lt⟩

end Text

namespace Program

open Text

variable {program : Program} {field : String}

/-- Lines access what they access one by one. -/
theorem accesses_joinLines (lines : List String) :
    accesses (joinLines lines) = lines.flatMap accesses := by
  induction lines with
  | nil => rfl
  | cons line lines ih =>
      rw [joinLines_cons, List.flatMap_cons, ← ih]
      unfold accesses
      rw [String.toList_append, String.toList_append, List.append_assoc]
      exact accessesFrom_append (by decide) _ _ _

theorem accessedIn_joinLines (lines : List String) :
    accessedIn (joinLines lines) = lines.flatMap accessedIn := by
  induction lines with
  | nil =>
      exact IsPlain.accessedIn (by decide : IsPlain "")
  | cons line lines ih =>
      rw [joinLines_cons, accessedIn_append, ih, List.flatMap_cons]

-- ======================================================= jumps

/-- Items that access nothing do not between gaps that keep them apart. -/
theorem accesses_intercalate {gap : String}
    (hgap : ∀ left right : String,
      accesses (left ++ gap ++ right) = accesses left ++ accesses right)
    {items : List String} (h : ∀ item ∈ items, accesses item = []) :
    accesses (gap.intercalate items) = [] := by
  induction items with
  | nil => rfl
  | cons item items ih =>
      obtain ⟨hitem, hitems⟩ := List.forall_mem_cons.mp h
      cases items with
      | nil => rwa [String.intercalate_singleton]
      | cons next items =>
          rw [String.intercalate_cons_cons, hgap, hitem, ih hitems]
          rfl

theorem subset_of_mem_rows {α : Type} {width : Nat} {items row : List α}
    (h : row ∈ rows width items) : row ⊆ items := by
  induction items using rows.induct width generalizing row with
  | case1 items hnone =>
      rw [rows, dif_pos hnone] at h
      cases h
  | case2 items hsome ih =>
      rw [rows, dif_neg hsome] at h
      rcases List.mem_cons.mp h with rfl | h
      · exact List.take_subset _ _
      · exact List.Subset.trans (ih h) (List.drop_subset _ _)

/-- The rows of a table access nothing if its items do not. -/
theorem accesses_tableRows (width : Nat) (items : List String)
    (h : ∀ item ∈ items, accesses item = []) :
    accesses (tableRows width items) = [] := by
  have hrows : ∀ row ∈ rows width items,
      accesses (String.intercalate ", " row) = [] := fun row hrow =>
    accesses_intercalate (fun left right => by
      simp [accesses, accessesFrom, isSeparator, isWordChar])
      fun item hitem => h item (subset_of_mem_rows hrow hitem)
  rw [tableRows, accesses_indent (by simp [IsBlank])]
  exact accesses_intercalate (fun left right => by
    simp [accesses, accessesFrom, isSeparator, isWordChar])
    (List.forall_mem_map.mpr hrows)

/-- The texts that the lines of a statement take over as they are: types and
names of variables, and names of functions. -/
def Stmt.texts : Stmt → List String
  | .declare type name => [type, name]
  | .trace hook _ => [hook]
  | .call callee .. => [callee]
  | .setCallback _ callback => [callback]
  | .callSpan callback => [callback]
  | _ => []

section statements

variable (hlabels : ∀ s, IsWord (program.stateLabel s))
include hlabels

theorem accesses_jumpLines (indent : String) (hindent : '>' ∉ indent.toList)
    (jump : Jump) : (program.jumpLines indent jump).flatMap accesses = [] := by
  have hlabel := (hlabels jump.target).arrow_notMem
  refine List.flatMap_eq_nil_iff.mpr fun line hline =>
    accesses_of_quiet ?_
  revert line
  unfold jumpLines
  cases jump.advance <;> cases jump.value <;> simp [hindent, hlabel]

theorem accesses_caseLines (label : String) (hlabel : accesses label = [])
    (jump : Jump) : (program.caseLines label jump).flatMap accesses = [] := by
  have hopen : accesses ("  " ++ label ++ ": \x7b") = [] := by
    unfold accesses at hlabel
    simp [accesses, accessesFrom, isWordChar, isSeparator, hlabel]
  have hclose : accesses "  \x7d" = [] := by decide
  unfold caseLines
  rw [List.flatMap_append, List.flatMap_append,
    accesses_jumpLines hlabels _ (by decide)]
  simp [hopen, hclose]

/-- No label has the end of an arrow in it. -/
theorem labelText_quiet (label : Label) :
    '>' ∉ (program.labelText label).toList := by
  cases label with
  | error => exact (by decide : '>' ∉ errorLabel.toList)
  | state s => exact (hlabels s).arrow_notMem

/-- The store of a place to go on at accesses its field. -/
theorem accesses_currentLine (indent : String) (hindent : IsBlank indent)
    (label : Label) :
    accesses (program.currentLine indent label) = [currentField] := by
  have hlabel := accessesFrom_eq_nil (labelText_quiet hlabels label)
  unfold currentLine currentField
  rw [String.append_assoc, String.append_assoc, String.append_assoc,
    String.append_assoc, accesses_indent hindent]
  simp [accesses, accessesFrom, isWordChar, isSeparator, hlabel]

/-- A comparison with a chunk of ranges accesses nothing. -/
theorem accesses_chunkLines (own : StateId) (chunk : List UInt8) :
    (program.chunkLines own chunk).flatMap accesses = [] := by
  have hown := (hlabels own).arrow_notMem
  refine List.flatMap_eq_nil_iff.mpr fun line hline =>
    accesses_of_quiet ?_
  revert line
  simp [chunkLines, blobName, hown]

omit hlabels in
/-- Items in a row access nothing if none of them does. -/
theorem accesses_items {α : Type} {items : List α} {text : α → List String}
    (h : ∀ x ∈ items, (text x).flatMap accesses = []) :
    (items.flatMap text).flatMap accesses = [] := by
  rw [List.flatMap_assoc]
  exact List.flatMap_eq_nil_iff.mpr h

/-- Cases access nothing if their labels do not. -/
theorem accesses_cases {α : Type} (cases : List α) (label : α → String)
    (jump : α → Jump) (h : ∀ x ∈ cases, accesses (label x) = []) :
    (cases.flatMap fun x => program.caseLines (label x) (jump x)).flatMap
      accesses = [] :=
  accesses_items fun x hx => accesses_caseLines hlabels _ (h x hx) (jump x)

/-- A call accesses what the name of its callee says. -/
theorem accesses_call (callee : String) (signature : Signature)
    (cases : List (Int32 × Jump)) (default : Jump) :
    (program.stmtLines (.call callee signature cases default)).flatMap accesses
      = accesses callee := by
  have hjumps := accesses_jumpLines hlabels "    " (by decide)
  have hhead : accesses ("switch (" ++ callee ++ "("
      ++ callArguments signature ++ ")) \x7b") = accesses callee := by
    cases signature <;>
      simp [callArguments, accesses, accessesFrom, isSeparator, isWordChar]
  have hcase : ∀ x : Int32 × Jump,
      (("  case " ++ toString x.1.toInt ++ ":")
        :: program.jumpLines "    " x.2).flatMap accesses = [] := by
    intro x
    rw [List.flatMap_cons, hjumps, accesses_of_quiet (by simp)]
    rfl
  have hdefault : accesses "  default:" = [] := by decide
  have hclose : accesses "\x7d" = [] := by decide
  simp only [stmtLines, List.flatMap_append, List.flatMap_cons,
    List.flatMap_nil, accesses_items fun x _ => hcase x, hhead, hdefault,
    hjumps, hclose, List.append_nil]

omit hlabels in
/-- A comparison accesses nothing in its state. -/
theorem accesses_matchLiteral (transform : Transform) (literal : Blob) :
    (program.stmtLines (.matchLiteral transform literal)).flatMap accesses
      = [] := by
  have hname : '>' ∉ (matcherName transform).toList := by
    cases transform <;> decide
  have hhead : accesses ("match_seq = " ++ matcherName transform
      ++ "(s, p, endp, " ++ program.blobName literal ++ ", "
      ++ toString literal.bytes.length ++ ");") = [] :=
    accesses_of_quiet (by simp [blobName, hname])
  have htail : accesses "p = match_seq.current;" = [] := by decide
  simp only [stmtLines, List.flatMap_cons, List.flatMap_nil, hhead, htail,
    List.append_nil]

/-- Telling the outcomes of a comparison apart accesses nothing. -/
theorem accesses_onOutcome (own : StateId) (complete mismatch : Jump) :
    (program.stmtLines (.onOutcome own complete mismatch)).flatMap accesses
      = [] := by
  have hcomplete := accesses_caseLines hlabels
    "case kMatchComplete" (by decide) complete
  have hmismatch := accesses_caseLines hlabels
    "case kMatchMismatch" (by decide) mismatch
  have hown := (hlabels own).arrow_notMem
  have hpause : accesses ("    return " ++ program.stateLabel own ++ ";")
      = [] :=
    accesses_of_quiet (by simp [hown])
  have hfixed : accesses "switch (match_seq.status) \x7b" = []
      ∧ accesses "  case kMatchPause: \x7b" = [] ∧ accesses "  \x7d" = []
      ∧ accesses "\x7d" = [] := by decide
  simp only [stmtLines, List.flatMap_append, List.flatMap_cons,
    List.flatMap_nil,
    hcomplete, hmismatch, hpause, hfixed, List.append_nil]

/-- Telling bytes apart accesses nothing. -/
theorem accesses_onByte (transform : Transform) (cases : List (UInt8 × Jump))
    (default : Jump) :
    (program.stmtLines (.onByte transform cases default)).flatMap accesses
      = [] := by
  have hcases := accesses_cases hlabels cases
    (fun x => "case " ++ byteLabel x.1) (·.2) fun x _ => by
      have hlabel := accesses_byteLabel x.1
      unfold accesses at hlabel
      simp [accesses, accessesFrom, isWordChar, hlabel]
  have hdefault := accesses_caseLines hlabels "default"
    (by decide) default
  have hhead : accesses ("switch (" ++ transform.render "*p" ++ ") \x7b")
      = [] := by
    cases transform <;> decide
  have hclose : accesses "\x7d" = [] := by decide
  simp only [stmtLines, List.flatMap_append, List.flatMap_cons,
    List.flatMap_nil,
    hcases, hdefault, hhead, hclose, List.append_nil]

/-- Telling the entries of a table apart accesses nothing. -/
theorem accesses_onEntry (transform : Transform) (cases : List Jump)
    (default : Jump) :
    (program.stmtLines (.onEntry transform cases default)).flatMap accesses
      = [] := by
  have hcases := accesses_cases hlabels cases.zipIdx
    (fun x => "case " ++ toString (x.2 + 1)) (·.1)
    fun x _ => accesses_of_quiet (by simp)
  have hdefault := accesses_caseLines hlabels "default"
    (by decide) default
  have hhead : accesses ("switch (lookup_table[(uint8_t) "
      ++ transform.render "*p" ++ "]) \x7b") = [] := by
    cases transform <;> decide
  have hclose : accesses "\x7d" = [] := by decide
  simp only [stmtLines, List.flatMap_append, List.flatMap_cons,
    List.flatMap_nil,
    hcases, hdefault, hhead, hclose, List.append_nil]

/-- Skipping by vector accesses nothing. -/
theorem accesses_skipRanges (own : StateId) (chunks : List (List UInt8))
    (default : Jump) :
    (program.stmtLines (.skipRanges own chunks default)).flatMap accesses
      = [] := by
  have hchunks : (chunks.flatMap (program.chunkLines own)).flatMap accesses
      = [] := by
    rw [List.flatMap_assoc]
    exact List.flatMap_eq_nil_iff.mpr fun chunk _ =>
      accesses_chunkLines hlabels own chunk
  have hdefault := accesses_jumpLines hlabels "  " (by decide)
    default
  have hfixed : (["#ifdef __SSE4_2__", "if (endp - p >= 16) \x7b",
      "  __m128i ranges;", "  __m128i input;", "  int match_len;", "",
      "  /* Load input */",
      "  input = _mm_loadu_si128((__m128i const*) p);"].flatMap accesses = [])
      ∧ ["\x7d", "#endif  /* __SSE4_2__ */"].flatMap accesses = [] := by
    decide
  simp only [stmtLines, List.flatMap_append, hchunks, hdefault, hfixed,
    List.append_nil]

/-- A span callback that fails has its error stored, and where to go on. -/
theorem accesses_onSpanError (advance : Bool) (resume : StateId) :
    (program.stmtLines (.onSpanError advance resume)).flatMap accesses
      = [errorField, errorPosField, currentField] := by
  have hcurrent := accesses_currentLine hlabels "  "
    (by simp [IsBlank]) (.state resume)
  have hfixed : accesses "if (err != 0) \x7b" = []
      ∧ accesses ("  s->" ++ errorField ++ " = err;") = [errorField]
      ∧ accesses ("  s->" ++ errorPosField ++ " = (const char*) "
          ++ (if advance then "(p + 1)" else "p") ++ ";") = [errorPosField]
      ∧ accesses ("  return " ++ errorLabel ++ ";") = []
      ∧ accesses "\x7d" = [] := by
    cases advance <;> decide
  simp only [stmtLines, List.flatMap_cons, List.flatMap_nil, hcurrent, hfixed,
    List.nil_append, List.append_nil, List.cons_append]

/-- Besides the fields that a statement is listed with, its lines access
what reads as an access within the texts that they take over. -/
theorem mem_accesses_stmtLines {stmt : Stmt} (hbare : stmt.quoted? = none)
    (hwords : ∀ field ∈ stmt.fields, IsWord field) {field : String} :
    field ∈ (program.stmtLines stmt).flatMap accesses
      ↔ field ∈ stmt.fields ∨ field ∈ stmt.texts.flatMap accesses := by
  have hlabel := labelText_quiet hlabels
  have hown := fun own => (hlabels own).accessesFrom
  cases stmt with
  | trace | setError => cases hbare
  | jump next =>
      have hnext := accesses_jumpLines hlabels "" (by decide) next
      simp [stmtLines, Stmt.fields, Stmt.texts, hnext]
  | setCurrent label =>
      have hline := accesses_currentLine hlabels ""
        (by simp [IsBlank]) label
      simp [stmtLines, Stmt.fields, Stmt.texts, hline]
  | call callee signature cases default =>
      rw [accesses_call hlabels]
      simp [Stmt.fields, Stmt.texts]
  | matchLiteral transform literal =>
      rw [accesses_matchLiteral]
      simp [Stmt.fields, Stmt.texts]
  | onOutcome own complete mismatch =>
      rw [accesses_onOutcome hlabels]
      simp [Stmt.fields, Stmt.texts]
  | onByte transform cases default =>
      rw [accesses_onByte hlabels]
      simp [Stmt.fields, Stmt.texts]
  | declareTable entries =>
      have hrows := accesses_tableRows 16
        (entries.map fun entry => toString entry.toNat)
        (List.forall_mem_map.mpr fun _ _ => (isWord_toString _).accesses)
      have hfixed : accesses "static uint8_t lookup_table[] = \x7b" = []
          ∧ accesses "\x7d;" = [] := by decide
      simp only [stmtLines, List.flatMap_cons, List.flatMap_nil, hrows, hfixed]
      simp [Stmt.fields, Stmt.texts]
  | skipRanges own chunks default =>
      rw [accesses_skipRanges hlabels]
      simp [Stmt.fields, Stmt.texts]
  | onEntry transform cases default =>
      rw [accesses_onEntry hlabels]
      simp [Stmt.fields, Stmt.texts]
  | onSpanError advance resume =>
      rw [accesses_onSpanError hlabels]
      simp [Stmt.fields, Stmt.texts]
  | skipAll name next =>
      have hname : IsWord name := hwords _ List.mem_cons_self
      have hnext := accesses_jumpLines hlabels "  " (by decide) next
      simp only [stmtLines, List.flatMap_append, hnext]
      simp [accesses, accessesFrom, isSeparator, isWordChar, Stmt.fields,
        Stmt.texts, hname]
  | openSlot slot | closeSlot slot =>
      have hslot : IsWord (positionField slot) := hwords _ List.mem_cons_self
      simp [stmtLines, accesses, accessesFrom, isSeparator, isWordChar,
        Stmt.fields, Stmt.texts, hslot]
  | setCallback slot callback =>
      have hslot : IsWord (callbackField slot) := hwords _ List.mem_cons_self
      simp [stmtLines, accesses, accessesFrom, isSeparator, isWordChar,
        Stmt.fields, Stmt.texts, hslot]
  | measure name | skipRest name =>
      have hname : IsWord name := hwords _ List.mem_cons_self
      simp [stmtLines, accesses, accessesFrom, isSeparator, isWordChar,
        Stmt.fields, Stmt.texts, hname]
  | _ =>
      simp [stmtLines, accesses, accessesFrom, isSeparator, isWordChar,
        Stmt.fields, Stmt.texts, hown, accessesFrom_eq_nil (hlabel _)]

end statements

-- ======================================================= moved lines

theorem isPlain_of_isBlank {indent : String} (h : IsBlank indent) :
    IsPlain indent :=
  ⟨fun hmem => absurd (h _ hmem) (by decide),
    fun hmem => absurd (h _ hmem) (by decide),
    fun hmem => absurd (h _ hmem) (by decide)⟩

/-- Dropping a carriage return adds no access. -/
theorem accesses_dropReturn (line : String) :
    accesses (dropReturn line) ⊆ accesses line := by
  unfold dropReturn
  split
  · rename_i rest hline
    have hchars : line.toList = rest.reverse ++ ['\r'] := by
      rw [← List.reverse_reverse line.toList, hline, List.reverse_cons]
    unfold accesses
    rw [hchars, accessesFrom_append (by decide), String.toList_ofList]
    exact List.subset_append_left _ _
  · exact List.Subset.refl _

/-- Moving the lines of a text right brings no access into them. -/
theorem accesses_of_mem_indentText {indent text line : String}
    (hindent : IsBlank indent) (h : line ∈ indentText indent text) :
    accesses line ⊆ accesses text := by
  obtain ⟨piece, hpiece, rfl⟩ := List.mem_map.mp h
  have hkept : accesses (dropReturn piece) ⊆ accesses text :=
    List.Subset.trans (accesses_dropReturn piece)
      (accesses_of_mem_splitOn (List.dropLast_subset _ hpiece))
  unfold indentLine
  split
  · exact List.nil_subset _
  · exact hkept
  · rwa [accesses_indent hindent]

/-- A line with a quoted text accesses what is before and behind the text,
wherever it is moved. -/
theorem accessedIn_literal {indent left right : String}
    (hindent : IsBlank indent) (hleft : IsPlain left) (hright : IsPlain right)
    (s : String) : accessedIn (indent ++ (left ++ stringLiteral s ++ right))
      = accesses left ++ accesses right := by
  have hplain := (isPlain_of_isBlank hindent).append hleft
  have hall := lineAccesses_literal hplain hright s
  have hline := lineFeed_notMem_literal hplain.1 hright.1 s
  rw [accesses_indent hindent] at hall
  rw [← hall, ← accessedIn_line hline]
  simp only [String.append_assoc]

/-- No code has the end of an arrow in it. -/
theorem hexLiteral_quiet (code : Int32) : '>' ∉ (hexLiteral code).toList := by
  have hdigits := (isWord_hexDigits code.toInt.natAbs).arrow_notMem
  unfold hexLiteral
  split <;> simp [hdigits]

/-- What a moved statement is listed with, its lines access, and what reads
as an access within the texts that they take over. A quoted text is none of
these, whatever it reads. -/
theorem mem_accessedIn_indentText
    (hlabels : ∀ s, IsWord (program.stateLabel s)) {indent : String}
    (hindent : IsBlank indent) {stmt : Stmt}
    (hwords : ∀ field ∈ stmt.fields, IsWord field) {line : String}
    (hline : line ∈ indentText indent (joinLines (program.stmtLines stmt)))
    (h : field ∈ accessedIn line) :
    field ∈ stmt.fields ∨ field ∈ stmt.texts.flatMap accesses := by
  have hraw : ∀ {text}, line ∈ indentText indent text →
      field ∈ accesses text := fun hmem =>
    accesses_of_mem_indentText hindent hmem (accessedIn_subset line h)
  cases stmt with
  | trace hook message =>
      have hlines : program.stmtLines (.trace hook message)
          = [hook ++ "(s, (const char*) p, (const char*) endp,"]
            ++ ("  " ++ stringLiteral message ++ ");") :: [] := rfl
      rw [hlines, indentText_literal (by decide) (by decide), indentText_nil,
        List.mem_append, List.mem_singleton] at hline
      rcases hline with hline | rfl
      · have hhook := hraw hline
        rw [accesses_joinLines] at hhook
        right
        simpa [Stmt.texts, accesses, accessesFrom, isSeparator, isWordChar]
          using hhook
      · have hmoved : indentLine indent ("  " ++ stringLiteral message
            ++ dropReturn ");") = indent
              ++ ("  " ++ stringLiteral message ++ ");") := by
          simp [indentLine, dropReturn]
        rw [hmoved, accessedIn_literal hindent (by decide) (by decide)] at h
        have hnone : accesses "  " ++ accesses ");" = [] := by decide
        rw [hnone] at h
        cases h
  | setError code reason =>
      have hlines : program.stmtLines (.setError code reason)
          = ["s->" ++ errorField ++ " = " ++ hexLiteral code ++ ";"]
            ++ ("s->" ++ reasonField ++ " = " ++ stringLiteral reason ++ ";")
            :: ["s->" ++ errorPosField ++ " = (const char*) p;"] := rfl
      rw [hlines, indentText_literal (by decide) (by decide), List.mem_append,
        List.mem_cons] at hline
      left
      rcases hline with hline | rfl | hline
      · have hfield := hraw hline
        have hcode := accessesFrom_eq_nil (hexLiteral_quiet code)
        rw [accesses_joinLines] at hfield
        have hname : field = errorField := by
          simpa [accesses, accessesFrom, isSeparator, isWordChar, errorField,
            hcode] using hfield
        simp [Stmt.fields, hname]
      · have hmoved : indentLine indent ("s->" ++ reasonField ++ " = "
            ++ stringLiteral reason ++ dropReturn ";") = indent
              ++ ("s->" ++ reasonField ++ " = " ++ stringLiteral reason
                ++ ";") := by
          simp [indentLine, dropReturn, reasonField]
        rw [hmoved, accessedIn_literal hindent (by decide) (by decide)] at h
        have hreason : accesses ("s->" ++ reasonField ++ " = ") ++ accesses ";"
            = [reasonField] := by decide
        rw [hreason] at h
        simp [Stmt.fields, List.mem_singleton.mp h]
      · have hfield := hraw hline
        have hposition : accesses (joinLines
            ["s->" ++ errorPosField ++ " = (const char*) p;"])
            = [errorPosField] := by decide
        rw [hposition] at hfield
        simp [Stmt.fields, List.mem_singleton.mp hfield]
  | _ =>
      rw [← mem_accesses_stmtLines hlabels rfl hwords, ← accesses_joinLines]
      exact hraw hline

-- ======================================================= functions

/-- The texts that an operand is written with. -/
def Operand.texts : Operand → List String
  | .limit literal => [literal.text]
  | .quotient a b | .difference a b | .masked a b | .equal a b =>
    a.texts ++ b.texts
  | _ => []

def Refusal.texts (refusal : Refusal) : List String :=
  refusal.left.texts ++ refusal.right.texts

/-- The texts that the lines of a step take over as they are: types, limits
and comments. -/
def Step.texts : Step → List String
  | .comment text => [text]
  | .alias type _ => [type]
  | .assign target _ value => target.texts ++ value.texts
  | .refuseIf refusal => refusal.texts
  | .refuseBySign nonnegative negative => nonnegative.texts ++ negative.texts
  | .answer value => value.texts
  | .blank => []

/-- The texts that the lines of a function take over as they are. -/
def Function.texts (function : Function) : List String :=
  function.name :: (function.body.getD []).flatMap Step.texts

/-- Operands are read apart around an operator. -/
theorem accesses_between {operator : String}
    (h : operator ∈ [" / ", " - ", " & ", " == "]) (left right : String) :
    accesses (left ++ operator ++ right) = accesses left ++ accesses
        right := by
  simp only [List.mem_cons, List.not_mem_nil, or_false] at h
  rcases h with rfl | rfl | rfl | rfl <;>
    simp [accesses, accessesFrom, isSeparator, isWordChar]

/-- An operand accesses its fields, and what its texts say. -/
theorem mem_accesses_operandText {operand : Operand}
    (hwords : ∀ field ∈ operand.fields, IsWord field) :
    field ∈ accesses (operandText operand)
      ↔ field ∈ operand.fields ∨ field ∈ operand.texts.flatMap accesses := by
  induction operand with
  | field name =>
      have hname : IsWord name := hwords _ List.mem_cons_self
      have hone : accesses ("s->" ++ name) = [name] := by
        have htake : name.toList.takeWhile isWordChar = name.toList :=
          List.takeWhile_eq_self_iff.mpr hname
        simp [accesses, accessesFrom, isWordChar, hname, htake]
      simp [operandText, hone, Operand.fields, Operand.texts]
  | aliased =>
      have hnone : accesses "(*field)" = [] := by decide
      simp [operandText, hnone, Operand.fields, Operand.texts]
  | matched =>
      have hnone : accesses "match" = [] := by decide
      simp [operandText, hnone, Operand.fields, Operand.texts]
  | number value =>
      have hnone : accesses (toString value.toInt) = [] :=
        accesses_of_quiet (by simp)
      simp only [operandText, hnone, Operand.fields, Operand.texts,
        List.flatMap_nil, List.not_mem_nil, or_self]
  | limit literal => simp [operandText, Operand.fields, Operand.texts]
  | quotient a b iha ihb | difference a b iha ihb | equal a b iha ihb =>
      obtain ⟨ha, hb⟩ := List.forall_mem_append.mp hwords
      simp only [operandText, accesses_between, List.mem_cons,
        true_or, or_true,
        List.mem_append, iha ha, ihb hb, Operand.fields, Operand.texts,
        List.flatMap_append, or_or_or_comm]
  | masked a b iha ihb =>
      obtain ⟨ha, hb⟩ := List.forall_mem_append.mp hwords
      have hclosed : accesses ("(" ++ operandText a ++ " & " ++ operandText b
          ++ ")") = accesses (operandText a ++ " & " ++ operandText b) := by
        simp [accesses, accessesFrom, isSeparator, isWordChar]
      simp only [operandText, hclosed, accesses_between,
        List.mem_cons, true_or,
        or_true, List.mem_append, iha ha, ihb hb, Operand.fields,
          Operand.texts,
        List.flatMap_append, or_or_or_comm]

/-- A refusal accesses what its operands do. -/
theorem mem_accesses_refusalLines {indent : String} (hindent : IsBlank indent)
    {refusal : Refusal} (hwords : ∀ field ∈ refusal.fields, IsWord field) :
    field ∈ (refusalLines indent refusal).flatMap accesses
      ↔ field ∈ refusal.fields ∨ field ∈ refusal.texts.flatMap accesses := by
  obtain ⟨hleft, hright⟩ := List.forall_mem_append.mp hwords
  have hhead : accesses (indent ++ "if (" ++ operandText refusal.left
      ++ (if refusal.ifGreater then " > " else " < ")
      ++ operandText refusal.right ++ ") \x7b")
      = accesses (operandText refusal.left)
        ++ accesses (operandText refusal.right) := by
    simp only [String.append_assoc, accesses_indent hindent]
    cases refusal.ifGreater <;>
      simp [accesses, accessesFrom, isSeparator, isWordChar]
  have hfixed : accesses (indent ++ "  return 1;") = []
      ∧ accesses (indent ++ "\x7d") = [] := by
    rw [accesses_indent hindent, accesses_indent hindent]
    decide
  simp only [refusalLines, List.flatMap_cons, List.flatMap_nil, hhead, hfixed,
    List.append_nil, List.mem_append, mem_accesses_operandText hleft,
    mem_accesses_operandText hright, Refusal.fields, Refusal.texts,
    List.flatMap_append, or_or_or_comm]

/-- Besides the fields that a step is listed with, its lines access what
reads as an access within the texts that they take over. -/
theorem mem_accesses_stepLines {step : Step}
    (hwords : ∀ field ∈ step.fields, IsWord field) :
    field ∈ (stepLines step).flatMap accesses
      ↔ field ∈ step.fields ∨ field ∈ step.texts.flatMap accesses := by
  cases step with
  | blank => simp [stepLines, accesses, accessesFrom, Step.fields, Step.texts]
  | comment text =>
      simp [stepLines, accesses, accessesFrom, isSeparator, isWordChar,
        Step.fields, Step.texts]
  | «alias» type name =>
      have hname : IsWord name := hwords _ List.mem_cons_self
      simp [stepLines, accesses, accessesFrom, isSeparator, isWordChar,
        Step.fields, Step.texts, hname]
      exact or_comm
  | assign target assignment value =>
      obtain ⟨htarget, hvalue⟩ := List.forall_mem_append.mp hwords
      have hline : accesses ("  " ++ operandText target ++ " "
          ++ assignment.operator ++ " " ++ operandText value ++ ";")
          = accesses (operandText target) ++ accesses (operandText value) := by
        cases assignment <;>
          simp [Assignment.operator, accesses, accessesFrom, isSeparator,
            isWordChar]
      simp only [stepLines, List.flatMap_cons, List.flatMap_nil,
        List.append_nil, hline, List.mem_append,
        mem_accesses_operandText htarget, mem_accesses_operandText hvalue,
        Step.fields, Step.texts, List.flatMap_append, or_or_or_comm]
  | refuseIf refusal =>
      exact mem_accesses_refusalLines (by simp [IsBlank]) hwords
  | refuseBySign nonnegative negative =>
      obtain ⟨hnonnegative, hnegative⟩ := List.forall_mem_append.mp hwords
      have hfixed : accesses "  if (match >= 0) \x7b" = []
          ∧ accesses "  \x7d else \x7b" = [] ∧ accesses "  \x7d" = [] := by
        decide
      simp only [stepLines, List.flatMap_append, List.flatMap_cons,
        List.flatMap_nil, hfixed, List.append_nil, List.nil_append,
        List.mem_append,
        mem_accesses_refusalLines (by simp [IsBlank] : IsBlank "    ")
          hnonnegative,
        mem_accesses_refusalLines (by simp [IsBlank] : IsBlank "    ")
          hnegative, Step.fields, Step.texts, List.flatMap_append,
        or_or_or_comm]
  | answer value =>
      have hline : accesses ("  return " ++ operandText value ++ ";")
          = accesses (operandText value) := by
        simp [accesses, accessesFrom, isSeparator, isWordChar]
      simp only [stepLines, List.flatMap_cons, List.flatMap_nil,
        List.append_nil, hline, mem_accesses_operandText hwords, Step.fields,
        Step.texts]

end Program

end Bytewise

/-
Programs as text.

The text has a fixed order: what it includes, the constants, the literal
comparisons, the states, the functions that states call, and the three
functions of the parser itself. A state that a call can begin in is a case
of the dispatch at the top of the run function; any other is a labelled
block below it.
-/
import Bytewise.Program.Basic
import Bytewise.Program.Header
import Bytewise.Program.OfParser
import Bytewise.Text.Literal

namespace Bytewise.Program

open Text

-- ====================================================== lines

/-- A line without the carriage return it ends in. -/
def dropReturn (line : String) : String :=
  match line.toList.reverse with
  | '\r' :: rest => String.ofList rest.reverse
  | _ => line

/-- A line of a body moved right. Empty lines stay empty, and lines for the
preprocessor stay at the margin. -/
def indentLine (indent line : String) : String :=
  match line.toList with
  | [] => ""
  | '#' :: _ => line
  | _ => indent ++ line

/-- The lines of a text, each of which ends in a line feed, moved right. -/
def indentText (indent text : String) : List String :=
  (text.splitOn "\n").dropLast.map fun line => indentLine indent
    (dropReturn line)

/-- Items in rows of `width`. -/
def rows {α : Type} (width : Nat) (items : List α) : List (List α) :=
  if _h : width = 0 ∨ items = [] then []
  else items.take width :: rows width (items.drop width)
termination_by items.length
decreasing_by
  have : items ≠ [] := fun e => _h (Or.inr e)
  have := List.length_pos_iff.mpr this
  simp only [List.length_drop]
  omega

/-- Items between braces, comma-separated, in rows of `width`. -/
def tableRows (width : Nat) (items : List String) : String :=
  "  " ++ String.intercalate ",\n  "
    ((rows width items).map (String.intercalate ", "))

-- ====================================================== names

/-- The label of the state that stands for a stopped parser. -/
def errorLabel : String := "s_error"

/-- The label of a state. -/
def stateLabel (program : Program) (id : StateId) : String :=
  "s_n_" ++ program.stateNames.getD id ""

/-- The text of a label. -/
def labelText (program : Program) : Label → String
  | .error => errorLabel
  | .state id => program.stateLabel id

/-- The name of a constant: its place among all constants. -/
def blobName (program : Program) (blob : Blob) : String :=
  "llparse_blob" ++ toString (program.blobs.idxOf blob)

/-- The name of the function that compares literals under a transform. -/
def matcherName (transform : Transform) : String :=
  "llparse__match_sequence_" ++ transform.name

/-- The type of the parser state. -/
def type (program : Program) : String :=
  stateType program.symbolPrefix

-- ====================================================== state bodies

/-- The arguments of a code. -/
def callArguments : Signature → String
  | .value => "s, p, endp, match"
  | _ => "s, p, endp"

/-- The lines of a jump. -/
def jumpLines (program : Program) (indent : String) (jump : Jump) :
    List String :=
  (if jump.advance then [indent ++ "p++;"] else [])
  ++ (match jump.value with
      | some value => [indent ++ "match = " ++ toString value.toInt ++ ";"]
      | none => [])
  ++ [indent ++ "goto " ++ program.stateLabel jump.target ++ ";"]

/-- The lines of a case of a dispatch. -/
def caseLines (program : Program) (label : String) (jump : Jump) :
    List String :=
  ["  " ++ label ++ ": \x7b"] ++ program.jumpLines "    " jump ++ ["  \x7d"]

/-- The lines that compare the next 16 bytes with a chunk of ranges. -/
def chunkLines (program : Program) (own : StateId) (chunk : List UInt8) :
    List String :=
  ["  ranges = _mm_loadu_si128((__m128i const*) " ++ program.blobName
   (chunkBlob chunk) ++ ");",
   "",
   "  /* Find first character that does not match `ranges` */",
   "  match_len = _mm_cmpestri(ranges, " ++ toString chunk.length ++ ",",
   "      input, 16,",
   "      _SIDD_UBYTE_OPS | _SIDD_CMP_RANGES |",
   "        _SIDD_NEGATIVE_POLARITY);",
   "",
   "  if (match_len != 0) \x7b",
   "    p += match_len;",
   "    goto " ++ program.stateLabel own ++ ";",
   "  \x7d"]

/-- The store of a place to go on at. -/
def currentLine (program : Program) (indent : String) (label : Label) :
    String :=
  indent ++ "s->" ++ currentField ++ " = (void*) (intptr_t) "
    ++ program.labelText label ++ ";"

/-- The lines of a statement. -/
def stmtLines (program : Program) : Stmt → List String
  | .blank => [""]
  | .declare type name => [type ++ " " ++ name ++ ";"]
  | .trace hook message =>
    [hook ++ "(s, (const char*) p, (const char*) endp,",
     "  " ++ stringLiteral message ++ ");"]
  | .waitForInput own =>
    ["if (p == endp) \x7b", "  return " ++ program.stateLabel own
      ++ ";", "\x7d"]
  | .jump jump => program.jumpLines "" jump
  | .leave label => ["return " ++ program.labelText label ++ ";"]
  | .setCurrent label => [program.currentLine "" label]
  | .setError code reason =>
    ["s->" ++ errorField ++ " = " ++ hexLiteral code ++ ";",
     "s->" ++ reasonField ++ " = " ++ stringLiteral reason ++ ";",
     "s->" ++ errorPosField ++ " = (const char*) p;"]
  | .call callee signature cases default =>
    ["switch (" ++ callee ++ "(" ++ callArguments signature ++ ")) \x7b"]
    ++ cases.flatMap (fun (code, jump) =>
        ("  case " ++ toString code.toInt ++ ":")
          :: program.jumpLines "    " jump)
    ++ ["  default:"] ++ program.jumpLines "    " default
    ++ ["\x7d"]
  | .matchLiteral transform literal =>
    ["match_seq = " ++ matcherName transform ++ "(s, p, endp, "
       ++ program.blobName literal ++ ", "
       ++ toString literal.bytes.length ++ ");",
     "p = match_seq.current;"]
  | .onOutcome own complete mismatch =>
    ["switch (match_seq.status) \x7b"]
    ++ program.caseLines "case kMatchComplete" complete
    ++ ["  case kMatchPause: \x7b", "    return " ++ program.stateLabel own
      ++ ";", "  \x7d"]
    ++ program.caseLines "case kMatchMismatch" mismatch
    ++ ["\x7d"]
  | .onByte transform cases default =>
    ["switch (" ++ transform.render "*p" ++ ") \x7b"]
    ++ cases.flatMap
      (fun (b, jump) => program.caseLines ("case " ++ byteLabel b) jump)
    ++ program.caseLines "default" default
    ++ ["\x7d"]
  | .declareTable entries =>
    ["static uint8_t lookup_table[] = \x7b",
     tableRows 16 (entries.map fun entry => toString entry.toNat),
     "\x7d;"]
  | .skipRanges own chunks default =>
    ["#ifdef __SSE4_2__",
     "if (endp - p >= 16) \x7b",
     "  __m128i ranges;",
     "  __m128i input;",
     "  int match_len;",
     "",
     "  /* Load input */",
     "  input = _mm_loadu_si128((__m128i const*) p);"]
    ++ chunks.flatMap (program.chunkLines own)
    ++ program.jumpLines "  " default
    ++ ["\x7d", "#endif  /* __SSE4_2__ */"]
  | .onEntry transform cases default =>
    ["switch (lookup_table[(uint8_t) " ++ transform.render "*p" ++ "]) \x7b"]
    ++ cases.zipIdx.flatMap (fun (jump, index) =>
        program.caseLines ("case " ++ toString (index + 1)) jump)
    ++ program.caseLines "default" default
    ++ ["\x7d"]
  | .openSlot slot => ["s->" ++ positionField slot ++ " = (void*) p;"]
  | .setCallback slot callback =>
    ["s->" ++ callbackField slot ++ " = " ++ callback ++ ";"]
  | .closeSlot slot =>
    ["start = s->" ++ positionField slot ++ ";",
     "s->" ++ positionField slot ++ " = NULL;"]
  | .callSpan callback => ["err = " ++ callback ++ "(s, start, p);"]
  | .onSpanError advance resume =>
    ["if (err != 0) \x7b",
     "  s->" ++ errorField ++ " = err;",
     "  s->" ++ errorPosField ++ " = (const char*) "
       ++ (if advance then "(p + 1)" else "p") ++ ";",
     program.currentLine "  " (.state resume),
     "  return " ++ errorLabel ++ ";",
     "\x7d"]
  | .measure field => ["avail = endp - p;", "need = s->" ++ field ++ ";"]
  | .skipAll field next =>
    ["if (avail >= need) \x7b",
     "  p += need;",
     "  s->" ++ field ++ " = 0;"]
    ++ program.jumpLines "  " next
    ++ ["\x7d"]
  | .skipRest field => ["s->" ++ field ++ " -= avail;"]

/-- The body of a state, at the margin. -/
def bodyText (program : Program) (state : State) : String :=
  joinLines (state.body.flatMap program.stmtLines)

-- ====================================================== called functions

/-- The text of an operand. -/
def operandText : Operand → String
  | .field name => "s->" ++ name
  | .aliased => "(*field)"
  | .matched => "match"
  | .number value => toString value.toInt
  | .limit literal => literal.text
  | .quotient a b => operandText a ++ " / " ++ operandText b
  | .difference a b => operandText a ++ " - " ++ operandText b
  | .masked a b => "(" ++ operandText a ++ " & " ++ operandText b ++ ")"
  | .equal a b => operandText a ++ " == " ++ operandText b

/-- The operator of an assignment. -/
def Assignment.operator : Assignment → String
  | set => "="
  | keepBits => "&="
  | setBits => "|="
  | multiply => "*="
  | add => "+="

/-- The lines of a refusal. -/
def refusalLines (indent : String) (refusal : Refusal) : List String :=
  [indent ++ "if (" ++ operandText refusal.left
     ++ (if refusal.ifGreater then " > " else " < ")
     ++ operandText refusal.right ++ ") \x7b",
   indent ++ "  return 1;",
   indent ++ "\x7d"]

/-- The lines of a step of an intrinsic. -/
def stepLines : Step → List String
  | .blank => [""]
  | .comment text => ["  /* " ++ text ++ " */"]
  | .alias type field =>
    ["  " ++ type ++ "* field = (" ++ type ++ "*) &s->" ++ field ++ ";"]
  | .assign target assignment value =>
    ["  " ++ operandText target ++ " " ++ assignment.operator ++ " "
      ++ operandText value ++ ";"]
  | .refuseIf refusal => refusalLines "  " refusal
  | .refuseBySign nonnegative negative =>
    ["  if (match >= 0) \x7b"] ++ refusalLines "    " nonnegative
      ++ ["  \x7d else \x7b"] ++ refusalLines "    " negative ++ ["  \x7d"]
  | .answer value => ["  return " ++ operandText value ++ ";"]

/-- The lines of a function that states call. -/
def functionLines (program : Program) (function : Function) : List String :=
  let head := [
    "int " ++ function.name ++ "(",
    "    " ++ program.type ++ "* s, const unsigned char* p,"]
  match function.body with
  | none =>
    head
    ++ (if function.signature == .value then
          ["    const unsigned char* endp,", "    int value);"]
        else ["    const unsigned char* endp);"])
  | some steps =>
    head
    ++ (if function.signature == .value then
          ["    const unsigned char* endp,", "    int match) \x7b"]
        else ["    const unsigned char* endp) \x7b"])
    ++ steps.flatMap stepLines
    ++ ["\x7d"]

-- ====================================================== parts

/-- What the text includes, and the macros and types it needs. -/
def preamble (program : Program) : List String := [
  "#include <stdlib.h>",
  "#include <stdint.h>",
  "#include <string.h>",
  "",
  "#ifdef __SSE4_2__",
  " #ifdef _MSC_VER",
  "  #include <nmmintrin.h>",
  " #else  /* !_MSC_VER */",
  "  #include <x86intrin.h>",
  " #endif  /* _MSC_VER */",
  "#endif  /* __SSE4_2__ */",
  "",
  "#ifdef _MSC_VER",
  " #define ALIGN(n) __declspec(align(n))",
  " #define UNREACHABLE __assume(0)",
  "#else  /* !_MSC_VER */",
  " #define ALIGN(n) __attribute__((aligned(n)))",
  " #define UNREACHABLE __builtin_unreachable()",
  "#endif  /* _MSC_VER */",
  "",
  "#include \"" ++ program.headerName ++ ".h\"",
  "",
  "typedef int (*" ++ program.symbolPrefix ++ "__span_cb)(",
  "             " ++ program.type
    ++ "*, const unsigned char*, const unsigned char*);",
  ""]

/-- The declaration of the debug hook. -/
def debugHookLines (program : Program) : List String :=
  match program.debugHook with
  | some hook =>
    ["void " ++ hook ++ "(" ++ program.type
       ++ "* s, const char* p, const char* endp, const char* msg);",
     ""]
  | none => []

/-- The definition of a constant. Aligned ones are for the vector unit only. -/
def blobLines (program : Program) (blob : Blob) : List String :=
  let align := match blob.alignment with
    | some n => "ALIGN(" ++ toString n ++ ") "
    | none => ""
  (if blob.alignment.isSome then ["#ifdef __SSE4_2__"] else [])
  ++ ["static const unsigned char " ++ align ++ program.blobName blob
      ++ "[] = \x7b",
      tableRows 11 (blob.bytes.map byteEntry),
      "\x7d;"]
  ++ (if blob.alignment.isSome then ["#endif  /* __SSE4_2__ */"] else [])

/-- The definitions of all constants. -/
def blobsLines (program : Program) : List String :=
  program.blobs.flatMap program.blobLines ++ (if program.blobs.isEmpty then
    [] else [""])

/-- The function that compares literals under a transform. -/
def matcherLines (program : Program) (transform : Transform) : List String := [
  "static llparse_match_t " ++ matcherName transform ++ "(",
  "    " ++ program.type ++ "* s, const unsigned char* p,",
  "    const unsigned char* endp,",
  "    const unsigned char* seq, uint32_t seq_len) \x7b",
  "  uint32_t index;",
  "  llparse_match_t res;",
  "",
  "  index = s->" ++ indexField ++ ";",
  "  for (; p != endp; p++) \x7b",
  "    unsigned char current;",
  "",
  "    current = " ++ transform.render "*p" ++ ";",
  "    if (current == seq[index]) \x7b",
  "      if (++index == seq_len) \x7b",
  "        res.status = kMatchComplete;",
  "        goto reset;",
  "      \x7d",
  "    \x7d else \x7b",
  "      res.status = kMatchMismatch;",
  "      goto reset;",
  "    \x7d",
  "  \x7d",
  "  s->" ++ indexField ++ " = index;",
  "  res.status = kMatchPause;",
  "  res.current = p;",
  "  return res;",
  "",
  "reset:",
  "  s->" ++ indexField ++ " = 0;",
  "  res.current = p;",
  "  return res;",
  "\x7d",
  ""]

/-- The types and functions of literal comparisons. -/
def matchersLines (program : Program) : List String :=
  if program.matchers.isEmpty then []
  else [
    "enum llparse_match_status_e \x7b",
    "  kMatchComplete,",
    "  kMatchPause,",
    "  kMatchMismatch",
    "\x7d;",
    "typedef enum llparse_match_status_e llparse_match_status_t;",
    "",
    "struct llparse_match_s \x7b",
    "  llparse_match_status_t status;",
    "  const unsigned char* current;",
    "\x7d;",
    "typedef struct llparse_match_s llparse_match_t;",
    ""]
    ++ program.matchers.flatMap program.matcherLines

/-- The enumeration of states. -/
def stateEnumLines (program : Program) : List String :=
  ["enum llparse_state_e \x7b", "  " ++ errorLabel ++ ","]
  ++ program.states.map
    (fun state => "  " ++ program.stateLabel state.id ++ ",")
  ++ ["\x7d;", "typedef enum llparse_state_e llparse_state_t;", ""]

/-- The functions that states call. -/
def functionsLines (program : Program) : List String :=
  program.functions.flatMap fun function => program.functionLines
    function ++ [""]

/-- The function that makes a parser state ready. -/
def initLines (program : Program) : List String := [
  "int " ++ program.symbolPrefix ++ "_init(" ++ program.type ++ "* s) \x7b",
  "  memset(s, 0, sizeof(*s));",
  program.currentLine "  " (.state program.root),
  "  return 0;",
  "\x7d",
  ""]

/-- The lines before the first case of the dispatch. -/
def dispatchLines (program : Program) : List String := [
  "static llparse_state_t " ++ program.symbolPrefix ++ "__run(",
  "    " ++ program.type ++ "* s,",
  "    const unsigned char* p,",
  "    const unsigned char* endp) \x7b",
  "  int match;",
  "  switch ((llparse_state_t) (intptr_t) s->" ++ currentField ++ ") \x7b"]

/-- The last cases of the dispatch: a stopped parser, and none. -/
def stoppedLines : List String := [
  "    case " ++ errorLabel ++ ":",
  "      return " ++ errorLabel ++ ";",
  "    default:",
  "      UNREACHABLE;",
  "  \x7d"]

/-- The block of a state, behind a case if a call can begin there. -/
def blockLines (program : Program) (state : State) : List String :=
  let label := program.stateLabel state.id
  if state.resumable then
    ["    case " ++ label ++ ":", "    " ++ label ++ ": \x7b"]
      ++ indentText "      " (program.bodyText state)
      ++ ["      UNREACHABLE;", "    \x7d"]
  else
    ["  " ++ label ++ ": \x7b"]
      ++ indentText "    " (program.bodyText state)
      ++ ["    UNREACHABLE;", "  \x7d"]

/-- The states whose blocks are cases of the dispatch. -/
def cases (program : Program) : List State :=
  program.states.filter (·.resumable)

/-- The states whose blocks come behind the dispatch. -/
def others (program : Program) : List State :=
  program.states.filter (!·.resumable)

/-- The function that runs from state to state. -/
def runLines (program : Program) : List String :=
  program.dispatchLines ++ program.cases.flatMap program.blockLines
    ++ stoppedLines ++ program.others.flatMap program.blockLines
    ++ ["\x7d", ""]

/-- The lines that let an open span begin again with the input of a call. -/
def restartLines (slot : SlotId) : List String := [
  "  if (s->" ++ positionField slot ++ " != NULL) \x7b",
  "    s->" ++ positionField slot ++ " = (void*) p;",
  "  \x7d"]

/-- The lines that pass what a call has read of an open span to its
callback. -/
def flushLines (program : Program) (slot : SlotId) (callbacks : List String) :
    List String :=
  let callback? := match callbacks with
    | [] => none
    | [callback] => some callback
    | _ =>
      some ("((" ++ program.symbolPrefix ++ "__span_cb) s->"
        ++ callbackField slot ++ ")")
  match callback? with
  | none => []
  | some callback => [
    "  if (s->" ++ positionField slot ++ " != NULL) \x7b",
    "    int error;",
    "",
    "    error = " ++ callback ++ "(s, s->" ++ positionField slot
      ++ ", (const unsigned char*) endp);",
    "    if (error != 0) \x7b",
    "      s->" ++ errorField ++ " = error;",
    "      s->" ++ errorPosField ++ " = endp;",
    "      return error;",
    "    \x7d",
    "  \x7d"]

/-- Lines about all slots, under a heading. -/
def slotLines (program : Program) (heading : String) (lines : List String) :
    List String :=
  if program.slots.isEmpty then [] else [heading] ++ lines ++ [""]

/-- The lines that answer at once for a parser that has failed before. -/
def refuseLines : List String := [
  "  llparse_state_t next;",
  "",
  "  /* check lingering errors */",
  "  if (s->" ++ errorField ++ " != 0) \x7b",
  "    return s->" ++ errorField ++ ";",
  "  \x7d",
  ""]

/-- The lines that answer for a run that has failed, and keep where another
goes on. -/
def leaveLines : List String := [
  "  if (next == " ++ errorLabel ++ ") \x7b",
  "    return s->" ++ errorField ++ ";",
  "  \x7d",
  "  s->" ++ currentField ++ " = (void*) (intptr_t) next;",
  ""]

/-- The function a host calls with each piece of input. -/
def executeLines (program : Program) : List String :=
  ["int " ++ program.symbolPrefix ++ "_execute(" ++ program.type
     ++ "* s, const char* p, const char* endp) \x7b"]
  ++ refuseLines
  ++ program.slotLines "  /* restart spans */"
      ((List.range program.slots.length).flatMap restartLines)
  ++ ["  next = " ++ program.symbolPrefix
        ++ "__run(s, (const unsigned char*) p, (const unsigned char*) endp);"]
  ++ leaveLines
  ++ program.slotLines "  /* execute spans */"
      (program.slots.zipIdx.flatMap fun (callbacks, slot) =>
        program.flushLines slot callbacks)
  ++ ["  return 0;", "\x7d"]

/-- The lines of the program. -/
def lines (program : Program) : List String :=
  program.preamble ++ program.debugHookLines ++ program.blobsLines
    ++ program.matchersLines ++ program.stateEnumLines
    ++ program.functionsLines ++ program.initLines ++ program.runLines
    ++ program.executeLines

/-- The program as text. -/
def render (program : Program) : String :=
  joinLines program.lines

end Bytewise.Program

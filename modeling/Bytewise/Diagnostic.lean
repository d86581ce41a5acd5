/-
Compile errors.

A `Cause` says what is wrong, in the terms of the graph, and nothing about
wording. Its `Report` is what a user or a tool sees: a kind, a stable code,
a message, and for some codes a hint what to do.
-/
import Bytewise.Property
import Bytewise.Text.Utf8

namespace Bytewise

-- ====================================================== causes

/-- What is wrong with an edge that a builder call would add, or with a node's
change. -/
inductive EdgeFault where
  /-- Keys of bytes belong on match nodes. -/
  | bytesOutsideMatch
  /-- A key needs a byte. -/
  | emptyKey
  /-- A peek looks at one byte. -/
  | widePeek
  /-- Return codes belong on invoke nodes. -/
  | codeOutsideInvoke
  /-- The node has an edge with this key. -/
  | duplicateKey
  /-- An error node is final. -/
  | edgeFromError
  /-- The node has its otherwise edge. -/
  | secondOtherwise
  /-- The node's otherwise edge cannot consume. -/
  | skipUnsupported
  /-- Only match nodes compare bytes. -/
  | transformOutsideMatch
  /-- The target takes a value and the edge has none. -/
  | valueMissing
  /-- The edge has a value that the invoked code does not take. -/
  | valueNotTaken
  /-- The edge has a value and the target calls nothing. -/
  | valueNotInvoked
deriving DecidableEq, Repr

/-- The wording of an edge fault. -/
def EdgeFault.message : EdgeFault → String
  | bytesOutsideMatch => "byte-keyed edges are only allowed on match nodes"
  | emptyKey => "empty keys are not allowed"
  | widePeek => "only single-byte keys are allowed in peek edges"
  | codeOutsideInvoke => "return-code edges are only allowed on invoke nodes"
  | duplicateKey => "duplicate edge key"
  | edgeFromError => "error nodes cannot have outgoing edges"
  | secondOtherwise => "node already has an `otherwise` or `skip_to`"
  | skipUnsupported => "`skip_to` is not supported here, use `otherwise`"
  | transformOutsideMatch => "transforms apply to match nodes only"
  | valueMissing =>
    "edge into a `value` invoke must carry a value (use `select`)"
  | valueNotTaken => "edge with a value must target a `value` invoke"
  | valueNotInvoked => "attempted to pass value to non-invoke node"

/-- Why a compilation, or a builder call, is refused. -/
inductive Cause where
  -- the graph
  | invalidEdge (node : String) (fault : EdgeFault)
  | missingOtherwise (node : String)
  | duplicateEntry (node : String) (path : List (List UInt8))
  | peekMatchConflict (node : String) (path : List (List UInt8))
  | emptyRootEntry (node : String)
  | bareLeaf (node : String)
  | nonByteKey (node : String)
  | nonIntegerKey (node : String)
  -- the machine
  | malformedEdge (state kind : String)
  | unknownField (field : String)
  | unsupportedType (type : FieldType) (field operation : String)
  -- options
  | tableElemWidth (width : Nat)
  | minTableSize
  | emptyOption (option : String)
  | invalidPrefix (text : String)
  -- properties
  | invalidProperty (name : String)
  | reservedProperty (name : String)
  | duplicateProperty (name : String)
  -- codes
  | spanCodeInvoked (code : String)
  | spanCodeInvokedBy (node : String)
  | spanCallbackSignature (code : String)
  | codeNameConflict (code : String)
  -- loops and spans
  | loop (node : String) (path : List String)
  | unmatchedSpanEnd (span node : String) (origin : Option String)
  | spanLoop (span node : String)
  | unallocatedSpan (span node : String)
deriving DecidableEq, Repr

-- ====================================================== reports

/-- What part of the work a report is about. -/
inductive ReportKind where
  | configuration
  | loop
  | span
deriving DecidableEq, Repr

/-- A compile error as it is shown. -/
structure Report where
  kind : ReportKind
  code : String
  message : String
deriving DecidableEq, Repr

namespace Report

/-- What to do about errors of a code. -/
def hint (report : Report) : Option String :=
  match report.code with
  | "E0200" =>
    some
      "make at least one transition on this path consume input (`skip_to` or `match_key`)"
  | "E0101" => some "add `.otherwise()` or `.skip_to()`"
  | "E0103" => some "keys sharing a prefix must all be peeks or all be matches"
  | "E0301" =>
    some "every path into a span end must pass through its span start"
  | _ => none

/-- The report as text: the hint, if there is one, on a line of its own. -/
def render (report : Report) : String :=
  "error[" ++ report.code ++ "]: " ++ report.message
    ++ (match report.hint with
        | some hint => "\n  hint: " ++ hint
        | none => "")

end Report

namespace Cause

/-- `text` in double quotes, as it is. -/
def quoted (text : String) : String :=
  "\"" ++ text ++ "\""

/-- The keys on the way to a trie level. -/
def pathText (path : List (List UInt8)) : String :=
  String.intercalate "," (path.map Text.ofUtf8Lossy)

/-- The stable code of a cause. -/
def code : Cause → String
  | missingOtherwise _ => "E0101"
  | duplicateEntry .. => "E0102"
  | peekMatchConflict .. => "E0103"
  | invalidEdge .. | emptyRootEntry _ | bareLeaf _ | nonByteKey _
  | nonIntegerKey _
  | malformedEdge .. => "E0104"
  | unknownField _ => "E0105"
  | tableElemWidth _ | minTableSize | emptyOption _
  | invalidPrefix _ => "E0106"
  | unsupportedType .. | invalidProperty _ | reservedProperty _
  | duplicateProperty _ => "E0107"
  | spanCodeInvoked _ | spanCodeInvokedBy _ | spanCallbackSignature _
  | codeNameConflict _ => "E0108"
  | loop .. => "E0200"
  | unmatchedSpanEnd .. => "E0301"
  | spanLoop .. => "E0302"
  | unallocatedSpan .. => "E0303"

/-- The kind of a cause. -/
def kind : Cause → ReportKind
  | loop .. => .loop
  | unmatchedSpanEnd .. | spanLoop .. | unallocatedSpan .. => .span
  | _ => .configuration

/-- The wording of a cause. -/
def message : Cause → String
  | invalidEdge node fault =>
    "Invalid edge on " ++ quoted node ++ ": " ++ fault.message
  | missingOtherwise node => "Node " ++ quoted node ++ " has no `.otherwise()`"
  | duplicateEntry node path =>
    "Duplicate entries in " ++ quoted node ++ " at: [" ++ pathText path ++ "]"
  | peekMatchConflict node path =>
    "Conflicting .peek and .match entries in " ++ quoted node ++ " at: ["
      ++ pathText path ++ "]"
  | emptyRootEntry node => "Empty root entry at " ++ quoted node
  | bareLeaf node => "Match node " ++ quoted node ++ " resolves to a bare leaf"
  | nonByteKey node =>
    "Match node " ++ quoted node ++ " has a non-byte edge key"
  | nonIntegerKey node =>
    "Invoke node " ++ quoted node ++ " has a non-integer edge key"
  | malformedEdge state kind =>
    "Malformed " ++ kind ++ " edge in " ++ quoted state
  | unknownField field => "Field " ++ quoted field ++ " not found"
  | unsupportedType type field operation =>
    "Unsupported type " ++ type.name ++ " of field " ++ quoted field
      ++ " for " ++ operation
  | tableElemWidth width =>
    "`maxTableElemWidth` must be between 1 and 8, got " ++ toString width
  | minTableSize => "`minTableSize` must be positive"
  | emptyOption option => "`" ++ option ++ "` must not be empty"
  | invalidPrefix text =>
    "Prefix " ++ quoted text ++ " is not a valid C identifier"
  | invalidProperty name => "Invalid property name " ++ quoted name
  | reservedProperty name => "Property name " ++ quoted name ++ " is reserved"
  | duplicateProperty name => "Duplicate property " ++ quoted name
  | spanCodeInvoked code =>
    "Passing `span` callback " ++ quoted code ++ " to `invoke` is not allowed"
  | spanCodeInvokedBy node =>
    "Invoke node " ++ quoted node ++ " cannot call a span callback"
  | spanCallbackSignature code =>
    "Span callback " ++ quoted code ++ " must have `span` signature"
  | codeNameConflict code => "Code name conflict for " ++ quoted code
  | loop node path =>
    "detected loop in " ++ quoted node ++ " through "
      ++ String.intercalate " -> " (path.map quoted)
  | unmatchedSpanEnd span node origin =>
    "unmatched span end for " ++ quoted span ++ " at " ++ quoted node
      ++ (match origin with
          | some origin => ", coming from " ++ quoted origin
          | none => "")
  | spanLoop span node =>
    "detected loop in span " ++ quoted span ++ " at " ++ quoted node
  | unallocatedSpan span node =>
    "span " ++ quoted span ++ " used by " ++ quoted node
      ++ " was never started"

/-- The cause as it is shown. -/
def report (cause : Cause) : Report :=
  ⟨cause.kind, cause.code, cause.message⟩

end Cause

end Bytewise

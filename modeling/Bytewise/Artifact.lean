/-
What a compilation produces: the generated source with its header, and a
record of what was built.
-/
import Bytewise.Json.Printer
import Bytewise.Parser.OfGraph
import Bytewise.Program.Printer
import Bytewise.Text.Sha256

namespace Bytewise

/-- What was built: the symbols, the size, the callbacks to link, and digests
of both texts. -/
structure BuildInfo where
  symbolPrefix : String
  compilerVersion : String
  stateCount : Nat
  callbacks : Callbacks
  sourceDigest : String
  headerDigest : String
deriving DecidableEq, Repr, Inhabited

/-- The result of a compilation. -/
structure Artifact where
  source : String
  header : String
  info : BuildInfo
deriving DecidableEq, Repr, Inhabited

/-- The version of the compiler. -/
def compilerVersion : String := "0.1.0"

namespace BuildInfo

open Json in
/-- The record as a Json value. -/
def toJson (info : BuildInfo) : Value :=
  let strings := fun names : List String => Value.array (names.map .string)
  .object [
    ("prefix", .string info.symbolPrefix),
    ("compiler_version", .string info.compilerVersion),
    ("state_count", .int info.stateCount),
    ("callbacks", .object [
      ("spans", strings info.callbacks.spans),
      ("matches", strings info.callbacks.plain),
      ("values", strings info.callbacks.values)]),
    ("c_source_sha256", .string info.sourceDigest),
    ("header_sha256", .string info.headerDigest)]

/-- The record as text. -/
def render (info : BuildInfo) : String :=
  info.toJson.pretty "" ++ "\n"

end BuildInfo

namespace Artifact

/-- Refuses a text that cannot start a symbol. -/
def validatePrefix (text : String) : Except Cause Unit :=
  if Text.isIdentifier text then .ok () else .error (.invalidPrefix text)

/-- The parser of a graph, with symbols that start with `symbolPrefix`. -/
def ofGraph (g : Graph) (root : NodeId) (symbolPrefix : String)
    (options : Options) :
    Except Cause Artifact := do
  validatePrefix symbolPrefix
  let parser ← Parser.ofGraph g root symbolPrefix options
  let program ← Program.ofParser parser options.debugHook options.headerName
  let source := program.render
  let header := Program.header symbolPrefix parser.properties parser.slots
  return {
    source
    header
    info := {
      symbolPrefix
      compilerVersion
      stateCount := program.stateCount
      callbacks := parser.machine.callbacks
      sourceDigest := Text.Sha256.hexDigest source
      headerDigest := Text.Sha256.hexDigest header } }

end Artifact

end Bytewise

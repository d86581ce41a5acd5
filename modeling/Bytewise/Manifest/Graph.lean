/-
Graphs from manifests.

Nodes are made before edges, so that an edge may name any node. Edges go
through the builder, and whatever it refuses makes the manifest fail.
-/
import Bytewise.Graph.Builder
import Bytewise.Manifest.Reader

namespace Bytewise

namespace Manifest

-- ====================================================== errors

/-- What a reference is to. -/
inductive Category where
  | code
  | span
  | node
deriving DecidableEq, Repr

/-- The word for a category. -/
def Category.word : Category → String
  | code => "code"
  | span => "span"
  | node => "node"

/-- What is wrong with a manifest beyond its shape. -/
inductive Flaw where
  /-- Two declarations have one name. -/
  | duplicate (category : Category) (name : String)
  /-- Nothing of this name is declared. -/
  | unknown (category : Category) (name : String)
  /-- A function of the user's has a name that no function can have. -/
  | externalName (name : String)
  /-- A node has both kinds of otherwise edge. -/
  | bothOtherwise (node : String)
  /-- A peek is not at one byte. -/
  | widePeek (node : String)
  /-- A select has no value. -/
  | valueMissing (node : String)
  /-- An edge does not say in just one way when it applies. -/
  | ambiguousEdge (node : String)
deriving DecidableEq, Repr

/-- The wording of a flaw. -/
def Flaw.message : Flaw → String
  | duplicate category name =>
    "duplicate " ++ category.word ++ " \"" ++ name ++ "\""
  | unknown category name =>
    "unknown " ++ category.word ++ " \"" ++ name ++ "\""
  | externalName name =>
    "external code \"" ++ name ++ "\" is not a valid C identifier"
  | bothOtherwise node =>
    "node \"" ++ node ++ "\" has both `otherwise` and `skipTo`"
  | widePeek node => "peek edge of \"" ++ node ++ "\" must be a single byte"
  | valueMissing node => "select edge of \"" ++ node ++ "\" needs a `value`"
  | ambiguousEdge node =>
    "edge of \"" ++ node
      ++ "\" must have exactly one of `match`, `peek`, `select` or `on`"

/-- Why a manifest makes no graph. -/
inductive Failure where
  | json (fault : Json.Fault)
  | invalid (flaw : Flaw)
  | compile (cause : Cause)
deriving DecidableEq, Repr

/-- The wording of a failure. -/
def Failure.message : Failure → String
  | json fault => "malformed manifest: " ++ fault.message
  | invalid flaw => "invalid manifest: " ++ flaw.message
  | compile cause => cause.message

-- ====================================================== building

/-- Work on the graph of a manifest. -/
abbrev Load := ExceptT Failure (StateM Graph)

/-- A builder call as part of loading. -/
def build {α : Type} (call : Build α) : Load α := do
  match call.run (← get) with
  | (result, g) =>
    set g
    match result with
    | .ok a => return a
    | .error cause => throw (.compile cause)

/-- Names declared so far, with what they stand for. -/
abbrev Names (α : Type) := List (String × α)

/-- What `name` stands for. -/
def lookup {α : Type} (names : Names α) (name : String) (category : Category) :
    Load α :=
  match names.lookup name with
  | some a => return a
  | none => throw (.invalid (.unknown category name))

/-- The names with `name` declared as well. -/
def declare {α : Type} (names : Names α) (name : String) (a : α)
    (category : Category) :
    Load (Names α) :=
  match names.lookup name with
  | some _ => throw (.invalid (.duplicate category name))
  | none => return (name, a) :: names

/-- Makes a declared code. -/
def addCode (decl : CodeDecl) : Load CodeRef := do
  match decl.kind with
  | .external signature =>
    if !Text.isIdentifier decl.name then
      throw (.invalid (.externalName decl.name))
    build (Build.externalCode decl.name signature)
  | kind => build (Build.intrinsic kind)

/-- Makes a declared node, without edges. -/
def addNode (codes : Names CodeRef) (spans : Names SpanId) (decl : NodeDecl) :
    Load NodeId := do
  let id ← match decl.kind with
    | .dispatch transform => do
      let id ← build (Build.node decl.name)
      match transform with
      | some transform => build (Build.transform id transform)
      | none => pure ()
      pure id
    | .error code reason => build (Build.error code reason)
    | .pause code reason => build (Build.pause code reason)
    | .consume field => build (Build.consume field)
    | .invoke code => do build (Build.invoke (← lookup codes code .code))
    | .spanStart span => do
        build (Build.spanStart (← lookup spans span .span) none)
    | .spanEnd span => do
        build (Build.spanEnd (← lookup spans span .span) none)
  build (Build.setName id decl.name)
  return id

/-- Adds a declared edge to the node `id`, called `name`. -/
def addEdge (nodes : Names NodeId) (id : NodeId) (name : String)
    (edge : EdgeDecl) :
    Load Unit := do
  let next ← lookup nodes edge.next .node
  match edge.matchKey, edge.peek, edge.select, edge.on, edge.value with
  | some key, none, none, none, none =>
    build (Build.matchKey id key.toBytes next)
  | none, some key, none, none, none =>
    match key.toBytes with
    | [byte] => build (Build.peek id byte next)
    | _ => throw (.invalid (.widePeek name))
  | none, none, some key, none, some value =>
    build (Build.select id key.toBytes value next)
  | none, none, some _, none, none => throw (.invalid (.valueMissing name))
  | none, none, none, some code, none => build (Build.on id code next)
  | _, _, _, _, _ => throw (.invalid (.ambiguousEdge name))

/-- Adds the edges of a declared node. -/
def addEdges (nodes : Names NodeId) (decl : NodeDecl) : Load Unit := do
  let id ← lookup nodes decl.name .node
  decl.edges.forM (addEdge nodes id decl.name)
  match decl.otherwise, decl.skipTo with
  | some _, some _ => throw (.invalid (.bothOtherwise decl.name))
  | some next, none => do
      build (Build.otherwise id (← lookup nodes next .node))
  | none, some next => do build (Build.skipTo id (← lookup nodes next .node))
  | none, none => return ()

/-- Makes the graph of a manifest and answers its root. -/
def load (manifest : Manifest) : Load NodeId := do
  manifest.properties.forM fun property =>
    build (Build.property property.type property.name)
  let codes ← manifest.codes.foldlM (fun names decl => do
    declare names decl.name (← addCode decl) .code) []
  let spans ← manifest.spans.foldlM (fun names decl => do
    let callback ← lookup codes decl.callback .code
    declare names decl.name (← build (Build.span callback)) .span) []
  let nodes ← manifest.nodes.foldlM (fun names decl => do
    declare names decl.name (← addNode codes spans decl) .node) []
  manifest.nodes.forM (addEdges nodes)
  lookup nodes manifest.root .node

/-- A graph with its root, and the prefix of its symbols if it names one. -/
structure Loaded where
  graph : Graph
  root : NodeId
  symbolPrefix : Option String
deriving DecidableEq, Repr, Inhabited

/-- The graph of a manifest. -/
def toGraph (manifest : Manifest) : Except Failure Loaded :=
  match (manifest.load).run {} with
  | (.ok root, graph) =>
    .ok { graph, root, symbolPrefix := manifest.symbolPrefix }
  | (.error failure, _) => .error failure

/-- The graph of a manifest's Json text. -/
def parse (text : String) : Except Failure Loaded :=
  match ofJson text with
  | .ok manifest => manifest.toGraph
  | .error fault => .error (.json fault)

end Manifest

end Bytewise

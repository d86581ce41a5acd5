/-
Manifests from Json.

Properties, spans, edges and the manifest itself are records. Codes and
nodes are objects whose `type` says which other members count: those are
set aside, whatever they hold, until the object ends, and members that the
type does not use are ignored.
-/
import Bytewise.Json.Reader
import Bytewise.Manifest.Basic

namespace Bytewise.Manifest

open Json Json.Reader

-- ====================================================== members set aside

/-- The members of an object that were set aside, in order. -/
abbrev Members := List (String × Value)

namespace Members

variable {α : Type}

/-- The values of all members called `name`. -/
def all (members : Members) (name : String) : List Value :=
  (members.filter (·.1 == name)).map (·.2)

/-- The value of the only member called `name`. -/
def get (members : Members) (name : String) (read : Value → Option α) :
    Option α :=
  match members.all name with
  | [value] => read value
  | _ => none

/-- The value of the only member called `name`, or a default if there is
none. -/
def getD (members : Members) (name : String) (read : Value → Option α)
    (default : α) : Option α :=
  match members.all name with
  | [] => some default
  | [value] => read value
  | _ => none

end Members

/-- A string. -/
def string? : Value → Option String
  | .string s => some s
  | _ => none

/-- A truth value. -/
def bool? : Value → Option Bool
  | .bool b => some b
  | _ => none

/-- An integer between `low` and `high`. -/
def int? (low high : Int) : Value → Option Int
  | .int n => if low ≤ n && n ≤ high then some n else none
  | _ => none

/-- A signed 64-bit integer. -/
def int64? (value : Value) : Option Int64 :=
  Int64.ofInt <$> int? Int64.minValue.toInt Int64.maxValue.toInt value

/-- A signed 32-bit integer. -/
def int32? (value : Value) : Option Int32 :=
  Int32.ofInt <$> int? Int32.minValue.toInt Int32.maxValue.toInt value

/-- A value or null. -/
def nullable? {α : Type} (read : Value → Option α) : Value → Option (Option α)
  | .null => some none
  | value => some <$> read value

/-- A transform: its name, alone or as the only member of an object, without
contents. -/
def transform? : Value → Option Transform
  | .string name => Transform.ofName? name
  | .object [(name, .null)] => Transform.ofName? name
  | .object [(name, .object [])] => Transform.ofName? name
  | _ => none

/-- A byte string, as text or as a list of byte values. -/
def key? : Value → Option KeyDecl
  | .string s => some (.text s)
  | .array elements =>
    (.bytes <| ·.map fun n => UInt8.ofNat n.toNat)
      <$> elements.mapM (int? 0 255)
  | _ => none

/-- The type of an object, out of `names`: its name, or its place among
them. -/
def type? (members : Members) (names : List String) : Option String :=
  members.get "type" fun
    | .string name => if names.contains name then some name else none
    | .int n => if n < 0 then none else names[n.toNat]?
    | _ => none

-- ====================================================== declarations

/-- The types of codes. -/
def codeTypes : List String :=
  ["match", "value", "span", "and", "isEqual", "load", "mulAdd", "or", "store",
    "test", "update"]

/-- What a code does, from its members. -/
def codeKind? (members : Members) : Option CodeKind := do
  let field := members.get "field" string?
  let value := members.get "value" int64?
  match ← type? members codeTypes with
  | "match" => return .external .plain
  | "value" => return .external .value
  | "span" => return .external .span
  | "and" => return .and (← field) (← value)
  | "isEqual" => return .isEqual (← field) (← value)
  | "load" => return .load (← field)
  | "mulAdd" =>
    return .mulAdd (← field) {
      base := ← members.get "base" int64?
      max := ← members.getD "max" (nullable? int64?) none
      signed := ← members.getD "signed" bool? false }
  | "or" => return .or (← field) (← value)
  | "store" => return .store (← field)
  | "test" => return .test (← field) (← value)
  | _ => return .update (← field) (← value)

/-- The types of nodes. -/
def nodeTypes : List String :=
  ["match", "error", "pause", "consume", "invoke", "spanStart", "spanEnd"]

/-- What a node does, from its members. -/
def nodeKind? (members : Members) : Option NodeDeclKind := do
  let code := members.get "code" int32?
  let reason := members.get "reason" string?
  let span := members.get "span" string?
  match ← type? members nodeTypes with
  | "match" =>
    return .dispatch (← members.getD "transform" (nullable? transform?) none)
  | "error" => return .error (← code) (← reason)
  | "pause" => return .pause (← code) (← reason)
  | "consume" => return .consume (← members.get "field" string?)
  | "invoke" => return .invoke (← members.get "code" string?)
  | "spanStart" => return .spanStart (← span)
  | _ => return .spanEnd (← span)

/-- A property under construction. -/
structure PropertyParts where
  type : Option FieldType := none
  name : Option String := none

/-- Reads a property. -/
def property (room : Nat) : Reader Property := do
  let parts ← record false [
    ⟨"type", fun room p =>
      return { p with type := some (← choice FieldType.ofName? room) }⟩,
    ⟨"name", fun _ p => return { p with name := some (← string) }⟩]
    ({} : PropertyParts) room
  return ⟨← require parts.type, ← require parts.name⟩

/-- A code under construction. -/
structure CodeParts where
  name : Option String := none
  members : Members := []

/-- Reads a code. -/
def code (room : Nat) : Reader CodeDecl := do
  let parts ← object (fun room name (p : CodeParts) => do
    if name == "name" then
      if p.name.isSome then fail .mismatch
      colon
      return { p with name := some (← string) }
    else
      colon
      return { p with members := p.members ++ [(name, ← value room)] }) {} room
  return ⟨← require parts.name, ← require (codeKind? parts.members)⟩

/-- A span under construction. -/
structure SpanParts where
  name : Option String := none
  callback : Option String := none

/-- Reads a span. -/
def span (room : Nat) : Reader SpanDecl := do
  let parts ← record true [
    ⟨"name", fun _ p => return { p with name := some (← string) }⟩,
    ⟨"callback", fun _ p => return { p with callback := some (← string) }⟩]
    ({} : SpanParts) room
  return ⟨← require parts.name, ← require parts.callback⟩

/-- Reads a key. It is read to its end before its shape is looked at. -/
def key (room : Nat) : Reader KeyDecl := do
  require (key? (← value room))

/-- An edge under construction. -/
structure EdgeParts where
  matchKey : Option KeyDecl := none
  peek : Option KeyDecl := none
  select : Option KeyDecl := none
  value : Option Int64 := none
  on : Option Int32 := none
  next : Option String := none

/-- Reads an edge. -/
def edge (room : Nat) : Reader EdgeDecl := do
  let int64 := Int64.ofInt <$> int Int64.minValue.toInt Int64.maxValue.toInt
  let int32 := Int32.ofInt <$> int Int32.minValue.toInt Int32.maxValue.toInt
  let parts ← record true [
    ⟨"match", fun room p =>
      return { p with matchKey := ← nullable (key room) }⟩,
    ⟨"peek", fun room p => return { p with peek := ← nullable (key room) }⟩,
    ⟨"select", fun room p =>
      return { p with select := ← nullable (key room) }⟩,
    ⟨"value", fun _ p => return { p with value := ← nullable int64 }⟩,
    ⟨"on", fun _ p => return { p with on := ← nullable int32 }⟩,
    ⟨"next", fun _ p => return { p with next := some (← string) }⟩]
    ({} : EdgeParts) room
  return {
    matchKey := parts.matchKey, peek := parts.peek, select := parts.select
    value := parts.value, on := parts.on, next := ← require parts.next }

/-- A node under construction. -/
structure NodeParts where
  name : Option String := none
  edges : List EdgeDecl := []
  otherwise : Option String := none
  skipTo : Option String := none
  /-- The names of the members read so far that are not set aside. -/
  seen : List String := []
  members : Members := []

/-- Reads a node. -/
def node (room : Nat) : Reader NodeDecl := do
  let fields : List (Member NodeParts) := [
    ⟨"name", fun _ p => return { p with name := some (← string) }⟩,
    ⟨"edges", fun room p => return { p with edges := ← array edge room }⟩,
    ⟨"otherwise", fun _ p => return { p with otherwise := ← nullable string }⟩,
    ⟨"skipTo", fun _ p => return { p with skipTo := ← nullable string }⟩]
  let parts ← object (fun room name (p : NodeParts) => do
    match fields.find? (·.name == name) with
    | some field =>
      if p.seen.contains name then fail .mismatch
      colon
      field.read room { p with seen := name :: p.seen }
    | none =>
      colon
      return { p with members := p.members ++ [(name, ← value room)] }) {} room
  return {
    name := ← require parts.name, kind := ← require (nodeKind? parts.members)
    edges := parts.edges, otherwise := parts.otherwise, skipTo :=
      parts.skipTo }

/-- A manifest under construction. -/
structure ManifestParts where
  symbolPrefix : Option String := none
  root : Option String := none
  properties : List Property := []
  codes : List CodeDecl := []
  spans : List SpanDecl := []
  nodes : Option (List NodeDecl) := none

/-- Reads a manifest. -/
def reader (room : Nat) : Reader Manifest := do
  let parts ← record true [
    ⟨"prefix", fun _ m => return { m with symbolPrefix := ← nullable string }⟩,
    ⟨"root", fun _ m => return { m with root := some (← string) }⟩,
    ⟨"properties", fun room m =>
      return { m with properties := ← array property room }⟩,
    ⟨"codes", fun room m => return { m with codes := ← array code room }⟩,
    ⟨"spans", fun room m => return { m with spans := ← array span room }⟩,
    ⟨"nodes", fun room m =>
      return { m with nodes := some (← array node room) }⟩]
    ({} : ManifestParts) room
  return {
    symbolPrefix := parts.symbolPrefix, root := ← require parts.root
    properties := parts.properties, codes := parts.codes, spans := parts.spans
    nodes := ← require parts.nodes }

/-- A manifest from its Json text. -/
def ofJson (text : String) : Except Fault Manifest :=
  readText reader text

end Bytewise.Manifest

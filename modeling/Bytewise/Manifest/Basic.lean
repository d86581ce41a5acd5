/-
Manifests: graphs as they are written down.

A manifest declares properties, codes, spans and nodes under names, and
wires the nodes together by name.
-/
import Bytewise.Code
import Bytewise.Property
import Bytewise.Text.Utf8
import Bytewise.Transform

namespace Bytewise

namespace Manifest

/-- A declared code. -/
structure CodeDecl where
  name : String
  kind : CodeKind
deriving DecidableEq, Repr, Inhabited

/-- A declared span, and the name of the code its bytes go to. -/
structure SpanDecl where
  name : String
  callback : String
deriving DecidableEq, Repr, Inhabited

/-- What a declared node does. Codes and spans are named. -/
inductive NodeDeclKind where
  | dispatch (transform : Option Transform)
  | error (code : Int32) (reason : String)
  | pause (code : Int32) (reason : String)
  | consume (field : String)
  | invoke (code : String)
  | spanStart (span : String)
  | spanEnd (span : String)
deriving DecidableEq, Repr, Inhabited

/-- A key, as text or as byte values. -/
inductive KeyDecl where
  | text (s : String)
  | bytes (bs : List UInt8)
deriving DecidableEq, Repr, Inhabited

/-- The bytes of a key. -/
def KeyDecl.toBytes : KeyDecl → List UInt8
  | .text s => Text.utf8 s
  | .bytes bs => bs

/-- A declared edge. Just one of the four ways to say when it applies is meant
to be used. -/
structure EdgeDecl where
  matchKey : Option KeyDecl := none
  peek : Option KeyDecl := none
  select : Option KeyDecl := none
  value : Option Int64 := none
  on : Option Int32 := none
  next : String
deriving DecidableEq, Repr, Inhabited

/-- A declared node. -/
structure NodeDecl where
  name : String
  kind : NodeDeclKind
  edges : List EdgeDecl := []
  otherwise : Option String := none
  skipTo : Option String := none
deriving DecidableEq, Repr, Inhabited

end Manifest

open Manifest in
/-- A graph as it is written down. -/
structure Manifest where
  symbolPrefix : Option String := none
  root : String
  properties : List Property := []
  codes : List CodeDecl := []
  spans : List SpanDecl := []
  nodes : List NodeDecl
deriving DecidableEq, Repr, Inhabited

end Bytewise

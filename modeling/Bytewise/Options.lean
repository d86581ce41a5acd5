/-
Compiler options: a record of optional members in camel case, each with a
default, and the conditions under which they can be used.
-/
import Bytewise.Diagnostic
import Bytewise.Json.Reader

namespace Bytewise

/-- What a user can choose about the generated source. -/
structure Options where
  /-- A function called on entry to every state, for tracing. -/
  debugHook : Option String := none
  /-- The header the source includes, without its extension; the symbol prefix
  by default. -/
  headerName : Option String := none
  /-- Bits of a lookup-table entry. -/
  tableElemWidth : Nat := 4
  /-- The fewest one-byte alternatives that make a lookup table. -/
  minTableSize : Nat := 32
deriving DecidableEq, Repr, Inhabited

namespace Options

/-- A lookup-table entry is one byte. -/
def maxTableElemWidth : Nat := 8

/-- The first thing that makes options unusable. -/
def fault? (options : Options) : Option Cause :=
  if options.tableElemWidth == 0
    || maxTableElemWidth < options.tableElemWidth then
    some (.tableElemWidth options.tableElemWidth)
  else if options.minTableSize == 0 then some .minTableSize
  else if options.debugHook == some "" then some (.emptyOption "debugHookName")
  else if options.headerName == some "" then some (.emptyOption "headerName")
  else none

/-- Refuses unusable options. -/
def validate (options : Options) : Except Cause Unit :=
  match options.fault? with
  | some cause => .error cause
  | none => .ok ()

/-- As many distinct targets are too many for a lookup table: one entry value
means none. -/
def maxTableTargets (options : Options) : Nat :=
  1 <<< options.tableElemWidth

open Json Json.Reader in
/-- Reads options. -/
def reader : (room : Nat) → Reader Options :=
  record true [
    ⟨"debugHookName", fun _ o =>
      return { o with debugHook := ← nullable string }⟩,
    ⟨"headerName", fun _ o =>
      return { o with headerName := ← nullable string }⟩,
    ⟨"maxTableElemWidth", fun _ o =>
      return { o with tableElemWidth := (← int 0 0xffffffff).toNat }⟩,
    ⟨"minTableSize", fun _ o =>
      return { o with minTableSize := (← int 0 0xffffffffffffffff).toNat }⟩] {}

/-- Options from their Json text. -/
def ofJson (text : String) : Except Json.Fault Options :=
  Json.Reader.readText reader text

end Options

end Bytewise

/-
What a compiled parser does when it runs.

A run is a sequence of steps, one for the body of each state it enters.
Positions are absolute: the input read so far stays in view, and a chunk
is what is new at its end. The input ends where the chunk ends; a state
that needs more of it suspends the parser, and the next chunk is read on
from there. What lies outside of the parser, the user's callbacks and the
meaning of intrinsics, is a `Host`; callbacks of spans always answer zero.
-/
import Bytewise.Parser.Basic

namespace Bytewise

-- ============================================================== hosts

/-- The contents of the property fields, which are declared unsigned. -/
abbrev Fields := String → Nat

/-- The fields with one of them set. -/
def Fields.set (fields : Fields) (field : String) (n : Nat) : Fields :=
  fun f => if f = field then n else fields f

/-- A call of a callback that is not a span's, with the value it is passed. -/
structure Call where
  callee : CodeId
  value : Option Int64
deriving DecidableEq, Repr

/-- Bytes handed to the callback of a span. -/
structure Delivery where
  slot : SlotId
  callback : CodeId
  bytes : List UInt8
deriving DecidableEq, Repr

/-- What lies outside of a parser. -/
structure Host where
  /-- What a callback returns, after these earlier calls. -/
  answer : (earlier : List Call) → Call → Int32
  /-- What an intrinsic returns, given the fields and the value passed, and the
  fields it leaves. -/
  operate : CodeKind → Fields → Option Int64 → Int32 × Fields

-- ============================================================ literals

namespace Machine

/-- How the comparison of a literal with the input comes out. -/
inductive LiteralStatus where
  | complete
  | pause
  | mismatch
deriving DecidableEq, Repr

/-- Compares the input with a literal from its byte `index` on. Answers how it
comes out, how many bytes are left behind, and the index to keep. The last byte
of a literal that is complete is left to the edge taken. -/
def matchLiteral (transform : Transform) (literal : List UInt8) :
    (input : List UInt8) → (index : Nat) → LiteralStatus × Nat × Nat
  | [], index => (.pause, 0, index)
  | b :: input, index =>
    if literal[index]? = some (transform.apply b) then
      if index + 1 = literal.length then (.complete, 0, 0)
      else
        let (status, read, index) :=
          matchLiteral transform literal input (index + 1)
        (status, read + 1, index)
    else (.mismatch, 0, 0)

/-- Whether an edge is taken on a byte. -/
def Edge.takes (edge : Edge) (b : UInt8) : Bool :=
  match edge.key with
  | some (.byte key) => key == b
  | some (.bytes keys) => keys.contains b
  | _ => false

end Machine

namespace Parser

-- ============================================================== steps

/-- A parser between two states, with all that it and its host have done. -/
structure Config where
  /-- The state it enters. -/
  state : StateId
  /-- How many bytes of the input are behind it. -/
  position : Nat := 0
  /-- How many bytes of a literal have been compared. -/
  index : Nat := 0
  /-- The value last passed along an edge; it is forgotten between chunks. -/
  matched : Option Int64 := none
  fields : Fields := fun _ => 0
  /-- Where the bytes of the span open in a slot begin. -/
  starts : SlotId → Option Nat := fun _ => none
  /-- The callback last stored in a slot. -/
  holders : SlotId → Option CodeId := fun _ => none
  calls : List Call := []
  deliveries : List Delivery := []

/-- What the body of a state comes to. -/
inductive Step where
  /-- The parser goes on. -/
  | next (c : Config)
  /-- It needs more input. -/
  | suspend (c : Config)
  /-- It has entered an error or a pause. -/
  | stop (c : Config) (code : Int32) (reason : String)
  /-- There is no such body. -/
  | stuck

namespace Config

/-- Takes an edge, passing `value` if there is one. -/
def follow (c : Config) (edge : Machine.Edge) (value : Option Int64) :
    Config :=
  { c with
    state := edge.target
    position := if edge.noAdvance then c.position else c.position + 1
    matched := value <|> c.matched }

/-- Calls a code: what it returns, and the parser after it. -/
def call (c : Config) (host : Host) (callee : CodeId) (code : Code) :
    Int32 × Config :=
  let value := if code.signature == .value then c.matched else none
  match code.kind with
  | .external _ =>
    (host.answer c.calls ⟨callee, value⟩,
      { c with calls := c.calls ++ [⟨callee, value⟩] })
  | kind =>
    let (result, fields) := host.operate kind c.fields value
    (result, { c with fields })

/-- Opens a span in a slot; a shared slot stores the callback too. -/
def openSlot (c : Config) (slot : SlotId) (callback : CodeId) (shared : Bool) :
    Config :=
  { c with
    starts := fun s => if s = slot then some c.position else c.starts s
    holders := fun s => if s = slot
      && shared then some callback else c.holders s }

/-- The bytes of the span open in a slot, up to `stop`. -/
def pending (c : Config) (data : List UInt8) (slot : SlotId) (stop : Nat) :
    List UInt8 :=
  match c.starts slot with
  | some start => (data.take stop).drop start
  | none => []

/-- Closes a slot and hands its bytes to a callback. -/
def closeSlot (c : Config) (data : List UInt8) (slot : SlotId)
    (callback : CodeId) : Config :=
  { c with
    starts := fun s => if s = slot then none else c.starts s
    deliveries :=
      c.deliveries ++ [⟨slot, callback, c.pending data slot c.position⟩] }

end Config

-- ============================================================== bodies

/-- Skips as many bytes as a field holds. If there are fewer, all are skipped
and the rest is left in the field. -/
def skipBody (data : List UInt8) (c : Config) (field : String)
    (otherwise : Machine.Edge) : Step :=
  let need := c.fields field
  let available := (data.drop c.position).length
  if need ≤ available then
    let c :=
      { c with position := c.position + need, fields := c.fields.set field 0 }
    .next (c.follow otherwise otherwise.value)
  else
    .suspend { c with
      position := c.position + available
      fields := c.fields.set field (need - available) }

/-- Goes on as `next` says, once there is a byte if one is consumed. -/
def passBody (data : List UInt8) (c : Config) (consumes : Bool)
    (next : Config) : Step :=
  if consumes && (data.drop c.position).isEmpty then .suspend c else .next next

/-- Calls a code and takes the edge of what it returns. -/
def invokeBody (host : Host) (c : Config) (callee : CodeId) (code : Code)
    (edges : List Machine.Edge) (otherwise : Machine.Edge) : Step :=
  let (result, c) := c.call host callee code
  match edges.find? (·.key == some (.code result)) with
  | some edge => .next (c.follow edge edge.value)
  | none => .next (c.follow otherwise none)

/-- Compares the input with the literal of the first edge, and takes it if the
literal is complete. -/
def literalBody (data : List UInt8) (c : Config) (transform : Transform)
    (edges : List Machine.Edge) (otherwise : Machine.Edge) : Step :=
  match edges with
  | edge :: _ =>
    match edge.key with
    | some (.bytes literal) =>
      let (status, read, index) :=
        Machine.matchLiteral transform literal (data.drop c.position) c.index
      let c := { c with position := c.position + read, index }
      match status with
      | .complete => .next (c.follow edge edge.value)
      | .pause => .suspend c
      | .mismatch => .next (c.follow otherwise otherwise.value)
    | _ => .stuck
  | [] => .stuck

/-- The body of a sequence, by how its literal comes out. -/
theorem literalBody_eq {t : Transform} {edge otherwise : Machine.Edge}
    {rest : List Machine.Edge} {literal : List UInt8}
    (hkey : edge.key = some (.bytes literal)) (data : List UInt8)
    (c : Config) :
    literalBody data c t (edge :: rest) otherwise
      = match Machine.matchLiteral t literal (data.drop c.position)
          c.index with
        | (.complete, read, index) => .next (({ c with
            position := c.position + read,
              index } : Config).follow edge edge.value)
        | (.pause, read, index) => .suspend { c with
            position := c.position + read, index }
        | (.mismatch, read, index) => .next (({ c with
            position := c.position + read,
                index } : Config).follow otherwise otherwise.value) := by
  simp only [literalBody, hkey]
  obtain ⟨status, read, index⟩ :=
    Machine.matchLiteral t literal (data.drop c.position) c.index
  cases status <;> rfl

/-- Takes the edge of the next byte. -/
def branchBody (data : List UInt8) (c : Config) (transform : Transform)
    (edges : List Machine.Edge) (otherwise : Machine.Edge) : Step :=
  match data.drop c.position with
  | [] => .suspend c
  | b :: _ =>
    match edges.find? (·.takes (transform.apply b)) with
    | some edge => .next (c.follow edge edge.value)
    | none => .next (c.follow otherwise otherwise.value)

/-- The body of a state that has an otherwise edge. -/
def body (parser : Parser) (host : Host) (data : List UInt8) (c : Config)
    (state : Machine.State) (otherwise : Machine.Edge) : Step :=
  match state.kind with
  | .error code reason | .pause code reason => .stop c code reason
  | .consume field => skipBody data c field otherwise
  | .empty =>
    passBody data c (!otherwise.noAdvance) (c.follow otherwise otherwise.value)
  | .invoke callee =>
    invokeBody host c callee (parser.machine.code callee) state.edges otherwise
  | .sequence =>
    literalBody data c state.effectiveTransform state.edges otherwise
  | .single
  | .table => branchBody data c state.effectiveTransform state.edges otherwise
  | .spanStart slot callback =>
    passBody data c true
      ((c.openSlot slot callback (parser.isSharedSlot slot)).follow
        otherwise none)
  | .spanEnd slot callback =>
    passBody data c (!otherwise.noAdvance)
      ((c.closeSlot data slot callback).follow otherwise none)

/-- What a parser does in the state it enters, with `data` as the input so
far. -/
def step (parser : Parser) (host : Host) (data : List UInt8)
    (c : Config) : Step :=
  let state := parser.machine.state c.state
  match state.otherwise, state.kind with
  | some otherwise, _ => parser.body host data c state otherwise
  | none, .error code reason => .stop c code reason
  | none, _ => .stuck

/-- A state without an otherwise edge does nothing, or stops. -/
theorem step_of_none {parser : Parser} (host : Host) {c : Config}
    (h : (parser.machine.state c.state).otherwise = none) :
    (∀ data c', c'.state = c.state → parser.step host data c' = .stuck)
      ∨ ∃ code reason, ∀ data c', c'.state = c.state →
          parser.step host data c' = .stop c' code reason := by
  cases hkind : (parser.machine.state c.state).kind with
  | error code reason =>
      refine Or.inr ⟨code, reason, fun data c' hc => ?_⟩
      unfold step
      rw [hc]
      simp only [h, hkind]
  | _ =>
      refine Or.inl fun data c' hc => ?_
      unfold step
      rw [hc]
      simp only [h, hkind]

theorem step_of_some {parser : Parser} {host : Host} {data : List UInt8}
    {c : Config} {otherwise : Machine.Edge}
    (h : (parser.machine.state c.state).otherwise = some otherwise) :
    parser.step host data c
      = parser.body host data c (parser.machine.state c.state) otherwise := by
  unfold step
  simp only [h]

-- =============================================================== runs

/-- How a run ends. -/
inductive Outcome where
  /-- The input has ended, and the parser waits for more in this state. -/
  | suspended (c : Config)
  /-- The parser has entered an error or a pause. -/
  | stopped (c : Config) (code : Int32) (reason : String)

/-- The steps with `data` as the input lead from `c` to an outcome. -/
inductive Runs (parser : Parser) (host : Host) (data : List UInt8) :
    Config → Outcome → Prop where
  | next {c c' : Config} {o : Outcome}
      (step : parser.step host data c = .next c')
      (rest : Runs parser host data c' o) : Runs parser host data c o
  | suspend {c c' : Config} (step : parser.step host data c = .suspend c') :
      Runs parser host data c (.suspended c')
  | stop {c c' : Config} {code : Int32} {reason : String}
      (step : parser.step host data c = .stop c' code reason) :
      Runs parser host data c (.stopped c' code reason)

/-- The callback that gets the bytes of a slot where a chunk ends: the one
stored if the slot is shared, else the only one it has. -/
def holder? (parser : Parser) (c : Config) (slot : SlotId) : Option CodeId :=
  if parser.isSharedSlot slot then c.holders slot
  else (parser.slots[slot]?).bind (·.head?)

/-- What a parser hands to callbacks where a chunk ends: the bytes of each open
span. -/
def flushed (parser : Parser) (data : List UInt8) (c : Config) :
    List Delivery :=
  (List.range parser.slots.length).filterMap fun slot => do
    let start ← c.starts slot
    let callback ← parser.holder? c slot
    return ⟨slot, callback, data.drop start⟩

/-- A suspended parser at the end of a chunk. -/
def finish (parser : Parser) (data : List UInt8) (c : Config) : Config :=
  { c with position := data.length,
           deliveries := c.deliveries ++ parser.flushed data c }

/-- A parser at the start of a chunk: spans that are open begin anew. -/
def restart (c : Config) : Config :=
  { c with matched := none,
           starts := fun slot => (c.starts slot).map fun _ => c.position }

/-- A parser that has read `data` is fed chunks. One that has stopped reads no
more of them. -/
inductive Feeds (parser : Parser) (host : Host) :
    (data : List UInt8) → Config → (chunks : List (List UInt8)) →
        Outcome → Prop where
  | done {data : List UInt8} {c : Config} : Feeds parser host data c []
      (.suspended c)
  | stop {data : List UInt8} {c c' : Config} {chunk : List UInt8}
      {chunks : List (List UInt8)}
      {code : Int32} {reason : String}
      (run : parser.Runs host (data ++ chunk) (restart c)
        (.stopped c' code reason)) :
      Feeds parser host data c (chunk :: chunks) (.stopped c' code reason)
  | chunk {data : List UInt8} {c c' : Config} {chunk : List UInt8}
      {chunks : List (List UInt8)}
      {o : Outcome}
        (run : parser.Runs host (data ++ chunk) (restart c) (.suspended c'))
      (rest : Feeds parser host (data ++ chunk)
        (parser.finish (data ++ chunk) c') chunks o) :
      Feeds parser host data c (chunk :: chunks) o

/-- A parser that has read nothing. -/
def init (parser : Parser) : Config :=
  { state := parser.root }

-- ========================================================= determinism

variable {parser : Parser} {host : Host} {data : List UInt8} {c : Config}
  {o o' : Outcome}

/-- A run ends in one way. -/
theorem Runs.unique (h : parser.Runs host data c o)
    (h' : parser.Runs host data c o') :
    o = o' := by
  induction h with
  | next hstep _ ih =>
      cases h' with
      | next hstep' hrest' =>
          rw [hstep] at hstep'
          cases hstep'
          exact ih hrest'
      | suspend hstep' => rw [hstep] at hstep'; cases hstep'
      | stop hstep' => rw [hstep] at hstep'; cases hstep'
  | suspend hstep =>
      cases h' with
      | next hstep' _ => rw [hstep] at hstep'; cases hstep'
      | suspend hstep' => rw [hstep] at hstep'; cases hstep'; rfl
      | stop hstep' => rw [hstep] at hstep'; cases hstep'
  | stop hstep =>
      cases h' with
      | next hstep' _ => rw [hstep] at hstep'; cases hstep'
      | suspend hstep' => rw [hstep] at hstep'; cases hstep'
      | stop hstep' => rw [hstep] at hstep'; cases hstep'; rfl

/-- Feeding ends in one way. -/
theorem Feeds.unique {chunks : List (List UInt8)}
    (h : parser.Feeds host data c chunks o)
    (h' : parser.Feeds host data c chunks o') : o = o' := by
  induction h with
  | done => cases h'; rfl
  | stop hrun =>
      cases h' with
      | stop hrun' => exact hrun.unique hrun'
      | chunk hrun' _ => cases hrun.unique hrun'
  | chunk hrun _ ih =>
      cases h' with
      | stop hrun' => cases hrun.unique hrun'
      | chunk hrun' hrest' =>
          cases hrun.unique hrun'
          exact ih hrest'

end Parser

end Bytewise

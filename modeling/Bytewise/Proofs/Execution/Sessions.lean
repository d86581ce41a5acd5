/-
Sessions of a parser with its host.

A host calls a parser with one chunk after the other. It may also go on
after the parser has stopped at a pause, or because the callback of a span
did not answer zero: it clears the error and calls again, with the input
from where the parser stopped. `Idle` has all that a parser may be between
two calls, and `Goes` what it passes through in one of them.

A value passed along an edge does not outlive the call it is passed in. So
a state that calls a code with a value needs the transition right before,
in the same call, to assign one (`ValuesAssigned`).
-/
import Mathlib.Logic.Relation
import Bytewise.Proofs.Execution.Discipline

namespace Bytewise.Parser

open Machine

-- ============================================================ sessions

/-- The steps of one call lead from one configuration to another. -/
def Goes (parser : Parser) (host : Host) (data : List UInt8) :
    Config → Config → Prop :=
  Relation.ReflTransGen fun b c => parser.step host data b = .next c

/-- A parser between two calls, with the input it has read so far. -/
inductive Idle (parser : Parser) (host : Host) :
    List UInt8 → Config → Prop where
  | init : Idle parser host [] parser.init
  /-- The chunk has ended. The bytes of open spans are handed over, up to a
  callback that fails. -/
  | ended {data chunk : List UInt8} {c d d' : Config}
      (idle : Idle parser host data c)
      (run : parser.Goes host (data ++ chunk) (restart c) d)
      (last : parser.step host (data ++ chunk) d = .suspend d')
        (served : Nat) :
      Idle parser host (data ++ chunk) { d' with
        position := (data ++ chunk).length
        deliveries :=
          d'.deliveries ++ (parser.flushed (data ++ chunk) d').take served }
  /-- The parser has entered a pause. It is left where the pause goes on to. -/
  | paused {data chunk : List UInt8} {c d d' : Config} {code : Int32}
      {reason : String}
      {otherwise : Machine.Edge} (idle : Idle parser host data c)
      (run : parser.Goes host (data ++ chunk) (restart c) d)
      (last : parser.step host (data ++ chunk) d = .stop d' code reason)
      (kind : (parser.machine.state d.state).kind = .pause code reason)
      (next : (parser.machine.state d.state).otherwise = some otherwise) :
      Idle parser host ((data ++ chunk).take d'.position)
        { d' with state := otherwise.target }
  /-- The callback of a span that has been closed has failed. -/
  | interrupted {data chunk : List UInt8} {c d d' : Config} {slot : SlotId}
      {callback : CodeId}
      (idle : Idle parser host data c)
        (run : parser.Goes host (data ++ chunk) (restart c) d)
      (last : parser.step host (data ++ chunk) d = .next d')
      (kind : (parser.machine.state d.state).kind = .spanEnd slot callback) :
      Idle parser host ((data ++ chunk).take d'.position) d'

-- ============================================================= values

/-- What the transition out of a state that branches assigns. -/
def branchValue (data : List UInt8) (c : Config) (transform : Transform)
    (edges : List Machine.Edge) (otherwise : Option Int64) : Option Int64 :=
  match data.drop c.position with
  | [] => none
  | b :: _ =>
    match edges.find? (·.takes (transform.apply b)) with
    | some edge => edge.value
    | none => otherwise

/-- What the transition out of a state that compares a literal assigns. -/
def literalValue (data : List UInt8) (c : Config) (transform : Transform)
    (edges : List Machine.Edge) (otherwise : Option Int64) : Option Int64 :=
  match edges with
  | ⟨some (.bytes literal), _, _, value⟩ :: _ =>
    match (matchLiteral transform literal (data.drop c.position) c.index).1
        with
    | .complete => value
    | _ => otherwise
  | _ => none

/-- The value that the transition out of a configuration assigns, if it assigns
one. -/
def assigned (parser : Parser) (host : Host) (data : List UInt8) (c : Config) :
    Option Int64 :=
  let state := parser.machine.state c.state
  let otherwise := state.otherwise.bind (·.value)
  match state.kind with
  | .consume _ | .empty => otherwise
  | .invoke callee =>
    let result := (c.call host callee (parser.machine.code callee)).1
    (state.edges.find? (·.key == some (.code result))).bind (·.value)
  | .sequence =>
    literalValue data c state.effectiveTransform state.edges otherwise
  | .single
  | .table => branchValue data c state.effectiveTransform state.edges otherwise
  | _ => none

/-- Whenever a code that takes a value is called, the transition right before,
in the same call of the parser, has assigned one. -/
def ValuesAssigned (parser : Parser) : Prop :=
  ∀ (host : Host) (data chunk : List UInt8) (idle c : Config),
    parser.Idle host data idle →
    parser.Goes host (data ++ chunk) (restart idle) c →
      parser.machine.TakesValue c.state →
      ∃ b v, parser.Goes host (data ++ chunk) (restart idle) b
        ∧ parser.step host (data ++ chunk) b = .next c
        ∧ parser.assigned host (data ++ chunk) b = some v ∧ c.matched = some v

-- ========================================================= transitions

variable {parser : Parser} {host : Host} {label : SlotLabel}
  {data : List UInt8} {b c : Config}

/-- The parser has followed an edge of a state. It has assigned the value of
the edge if the state reads keys, and what was assigned before stays if it has
assigned nothing. -/
def Followed (state : Machine.State) (b c : Config) (value : Option Int64) :
    Prop :=
  ∃ edge ∈ state.allEdges, c.state = edge.target
    ∧ (state.kind.Dispatches → value = edge.value)
    ∧ c.matched = (value <|> b.matched)

/-- A branch assigns the value of the edge that is found. -/
private theorem branchValue_eq {state : Machine.State} {t : Transform}
    {byte : UInt8} {rest : List UInt8} {edge : Machine.Edge}
    {value : Option Int64} (hinput : data.drop b.position = byte :: rest)
    (hfound : Finds state (·.takes (t.apply byte)) (·.value) edge value) :
    branchValue data b t state.edges (state.otherwise.bind (·.value))
      = edge.value ∧ value = edge.value := by
  unfold branchValue
  rw [hinput]
  dsimp only
  cases hfound with
  | keyed found =>
      rw [found]
      exact ⟨rfl, rfl⟩
  | otherwise missed other =>
      rw [missed, other]
      exact ⟨rfl, rfl⟩

/-- A comparison assigns the value of the edge that it comes to. -/
private theorem literalValue_eq {state : Machine.State} {t : Transform}
    {literal : List UInt8} {edge next : Machine.Edge}
    {rest : List Machine.Edge} {status : LiteralStatus} {read index : Nat}
    (hkey : edge.key = some (.bytes literal))
    (hcompared : matchLiteral t literal (data.drop b.position) b.index
      = (status, read, index))
    (hends : Ends state edge status next) :
    literalValue data b t (edge :: rest) (state.otherwise.bind (·.value))
        = next.value := by
  obtain ⟨key, target, stays, value⟩ := edge
  obtain rfl : key = some (.bytes literal) := hkey
  unfold literalValue
  dsimp only
  rw [hcompared]
  cases hends with
  | complete => rfl
  | mismatch other =>
      rw [other]
      rfl

/-- A state that reads no keys follows its otherwise edge. -/
private theorem followed_otherwise {state : Machine.State}
    {otherwise : Machine.Edge} (hother : state.otherwise = some otherwise)
    (hreads : ¬ state.kind.Dispatches) (c : Config) {value : Option Int64}
    (hmatched : c.matched = b.matched) :
    Followed state b (c.follow otherwise value) value :=
  ⟨otherwise, otherwise_mem hother, rfl, fun h => absurd h hreads,
    congrArg (value <|> ·) hmatched⟩

/-- A step follows an edge of the state it is taken in. -/
theorem followed_of_step (h : parser.step host data b = .next c) :
    Followed (parser.machine.state b.state) b c
        (parser.assigned host data b) := by
  unfold assigned
  cases advances_of_step h with
  | skip kind next _ | pass kind next _ | openSlot kind next _
  | closeSlot kind next _ =>
      simp only [kind, next]
      exact followed_otherwise next (by rw [kind]; exact id) _ rfl
  | @call callee edge value kind found =>
      have hmatched :=
        (call_frame b host callee (parser.machine.code callee)).2.2.2.2.2.2
      have hreads : ¬ (parser.machine.state b.state).kind.Dispatches := by
        rw [kind]
        exact id
      simp only [kind]
      cases found with
      | keyed found =>
          rw [found]
          exact ⟨edge, find_mem found, rfl, fun h => absurd h hreads,
            congrArg (edge.value <|> ·) hmatched⟩
      | otherwise missed other =>
          rw [missed]
          exact followed_otherwise other hreads _ hmatched
  | @compare literal edge next rest status read index kind edges key
      compared ends =>
      obtain ⟨hmem, -⟩ := ends.mem (by rw [edges]; exact List.mem_cons_self)
      simp only [kind, edges, literalValue_eq key compared ends]
      exact ⟨next, hmem, rfl, fun _ => rfl, rfl⟩
  | @branch byte rest edge value kind input found =>
      obtain ⟨hassigned, rfl⟩ := branchValue_eq input found
      rcases kind with kind | kind <;> simp only [kind, hassigned]
      · exact ⟨edge, found.mem, rfl, fun _ => rfl, rfl⟩
      · exact ⟨edge, found.mem, rfl, fun _ => rfl, rfl⟩

/-- A state that waits for input is not one that calls, and it is entered
again. -/
theorem waits_of_suspend (h : parser.step host data b = .suspend c) :
    c.state = b.state ∧ ¬ parser.machine.TakesValue c.state := by
  have hcalls : (∀ callee, (parser.machine.state b.state).kind
      ≠ .invoke callee) →
      ¬ parser.machine.TakesValue b.state := by
    intro hnot htakes
    obtain ⟨callee, hkind, _⟩ := htakes
    exact hnot callee hkind
  cases waits_of_step h with
  | skip kind _ => exact ⟨rfl, hcalls (by simp [kind])⟩
  | compare kind _ _ _ => exact ⟨rfl, hcalls (by simp [kind])⟩
  | idle kind _ =>
      refine ⟨rfl, hcalls fun callee hkind => ?_⟩
      rw [hkind] at kind
      exact kind

-- ============================================================ sessions

/-- A transition into a state that takes a value assigns one. -/
theorem Disciplined.assigns (hd : parser.Disciplined label)
    (hstep : parser.step host data b = .next c)
    (htakes : parser.machine.TakesValue c.state) :
    ∃ v, parser.assigned host data b = some v ∧ c.matched = some v := by
  obtain ⟨edge, hmem, hstate, hvalue, hmatched⟩ := followed_of_step hstep
  rw [hstate] at htakes
  obtain ⟨hsome, hreads⟩ := hd.value b.state edge hmem htakes
  obtain ⟨v, hv⟩ := Option.isSome_iff_exists.mp hsome
  have hassigned : parser.assigned host data b = some v :=
    (hvalue hreads).trans hv
  refine ⟨v, hassigned, ?_⟩
  rw [hmatched, hassigned]
  rfl

/-- Only a parser that has read nothing is about to call a code with a value
when it is called. -/
theorem Idle.init_of_takesValue (hd : parser.Disciplined label)
    (h : parser.Idle host data c)
    (htakes : parser.machine.TakesValue c.state) : c = parser.init := by
  cases h with
  | init => rfl
  | ended idle run last served => exact absurd htakes (waits_of_suspend last).2
  | @paused _ _ _ d d' code reason otherwise idle run last kind next =>
      obtain ⟨_, hreads⟩ :=
        hd.value d.state otherwise (otherwise_mem next) htakes
      rw [kind] at hreads
      exact hreads.elim
  | @interrupted _ _ _ d _ slot callback idle run last kind =>
      obtain ⟨edge, hmem, hstate, _⟩ := followed_of_step last
      rw [hstate] at htakes
      obtain ⟨_, hreads⟩ := hd.value d.state edge hmem htakes
      rw [kind] at hreads
      exact hreads.elim

/-- A disciplined parser assigns all values that are used, unless it begins
with using one. -/
theorem Disciplined.valuesAssigned (hd : parser.Disciplined label) :
    parser.ValuesAssigned ↔ ¬ parser.machine.TakesValue parser.root := by
  constructor
  · intro hall htakes
    -- nothing has been assigned where the first call begins
    obtain ⟨_, _, _, _, _, hmatched⟩ :=
      hall ⟨fun _ _ => 0, fun _ fields _ => (0, fields)⟩ []
        [] parser.init (restart parser.init)
        .init .refl htakes
    cases hmatched
  · intro hroot host data chunk idle c hidle hgoes htakes
    rcases hgoes.cases_tail with heq | ⟨b, hb, hstep⟩
    · subst heq
      have hinit := hidle.init_of_takesValue hd htakes
      subst hinit
      exact absurd htakes hroot
    · obtain ⟨v, hassigned, hmatched⟩ := hd.assigns hstep htakes
      exact ⟨b, v, hb, hstep, hassigned, hmatched⟩

end Bytewise.Parser

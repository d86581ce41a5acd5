/-
The ways in which a step comes out.

What the body of a state does depends on its kind, on the input before the
parser and on what a code returns. `Advances` has a case for every way in
which a state goes on, with all that decides for it, and `Waits` has one
for every way in which it runs out of input. What holds after every step is
read off these cases.
-/
import Bytewise.Proofs.Execution.Basic

namespace Bytewise

/-- Kinds that may wait for a byte before they do anything. -/
def Machine.StateKind.AwaitsByte : Machine.StateKind → Prop
  | .empty | .single | .table | .spanStart .. | .spanEnd .. => True
  | _ => False

namespace Parser

open Machine

-- =============================================================== cases

/-- The edge that a search of the keyed edges comes to, and the value passed
along it; `spare` is the value if none of them is taken. -/
inductive Finds (state : Machine.State) (test : Machine.Edge → Bool)
    (spare : Machine.Edge → Option Int64) : Machine.Edge → Option Int64 →
    Prop where
  | keyed {edge : Machine.Edge} (found : state.edges.find? test = some edge) :
      Finds state test spare edge edge.value
  | otherwise {edge : Machine.Edge} (missed : state.edges.find? test = none)
      (other : state.otherwise = some edge) : Finds state test spare
      edge (spare edge)

/-- The edge that a comparison with the literal of an edge comes to. -/
inductive Ends (state : Machine.State) (edge : Machine.Edge) :
    LiteralStatus → Machine.Edge → Prop where
  | complete : Ends state edge .complete edge
  | mismatch {other : Machine.Edge} (next : state.otherwise = some other) :
      Ends state edge .mismatch other

/-- The ways in which the state that is entered goes on. -/
inductive Advances (parser : Parser) (host : Host) (data : List UInt8)
    (c : Config) :
    Config → Prop where
  | skip {field : String} {otherwise : Machine.Edge}
      (kind : (parser.machine.state c.state).kind = .consume field)
      (next : (parser.machine.state c.state).otherwise = some otherwise)
      (enough : c.fields field ≤ (data.drop c.position).length) :
      Advances parser host data c (({ c with
        position := c.position + c.fields field
        fields := c.fields.set field 0 } : Config).follow otherwise
          otherwise.value)
  | pass {otherwise : Machine.Edge}
      (kind : (parser.machine.state c.state).kind = .empty)
      (next : (parser.machine.state c.state).otherwise = some otherwise)
      (input : otherwise.noAdvance = false → c.position < data.length) :
      Advances parser host data c (c.follow otherwise otherwise.value)
  | call {callee : CodeId} {edge : Machine.Edge} {value : Option Int64}
      (kind : (parser.machine.state c.state).kind = .invoke callee)
      (found : Finds (parser.machine.state c.state)
        (·.key
          == some (.code (c.call host callee (parser.machine.code callee)).1))
        (fun _ => none) edge value) :
      Advances parser host data c
        ((c.call host callee (parser.machine.code callee)).2.follow edge value)
  | compare {literal : List UInt8} {edge next : Machine.Edge}
      {rest : List Machine.Edge}
      {status : LiteralStatus} {read index : Nat}
      (kind : (parser.machine.state c.state).kind = .sequence)
      (edges : (parser.machine.state c.state).edges = edge :: rest)
      (key : edge.key = some (.bytes literal))
      (compared : matchLiteral
        (parser.machine.state c.state).effectiveTransform literal
        (data.drop c.position) c.index = (status, read, index))
      (ends : Ends (parser.machine.state c.state) edge status next) :
      Advances parser host data c (({ c with
        position := c.position + read,
          index } : Config).follow next next.value)
  | branch {b : UInt8} {rest : List UInt8} {edge : Machine.Edge}
      {value : Option Int64}
      (kind : (parser.machine.state c.state).kind = .single
        ∨ (parser.machine.state c.state).kind = .table)
      (input : data.drop c.position = b :: rest)
      (found : Finds (parser.machine.state c.state)
        (·.takes ((parser.machine.state c.state).effectiveTransform.apply b))
        (·.value) edge
        value) :
      Advances parser host data c (c.follow edge value)
  | openSlot {slot : SlotId} {callback : CodeId} {otherwise : Machine.Edge}
      (kind : (parser.machine.state c.state).kind = .spanStart slot callback)
      (next : (parser.machine.state c.state).otherwise = some otherwise)
      (input : c.position < data.length) :
      Advances parser host data c
        ((c.openSlot slot callback (parser.isSharedSlot slot)).follow
          otherwise none)
  | closeSlot {slot : SlotId} {callback : CodeId} {otherwise : Machine.Edge}
      (kind : (parser.machine.state c.state).kind = .spanEnd slot callback)
      (next : (parser.machine.state c.state).otherwise = some otherwise)
      (input : otherwise.noAdvance = false → c.position < data.length) :
      Advances parser host data c
        ((c.closeSlot data slot callback).follow otherwise none)

/-- The ways in which the state that is entered waits for more input. -/
inductive Waits (parser : Parser) (data : List UInt8) (c : Config) :
    Config → Prop where
  | skip {field : String}
      (kind : (parser.machine.state c.state).kind = .consume field)
      (short : (data.drop c.position).length < c.fields field) :
      Waits parser data c { c with
        position := c.position + (data.drop c.position).length
        fields :=
          c.fields.set field (c.fields field - (data.drop c.position).length) }
  | compare {literal : List UInt8} {edge : Machine.Edge}
      {rest : List Machine.Edge}
      {read index : Nat}
        (kind : (parser.machine.state c.state).kind = .sequence)
      (edges : (parser.machine.state c.state).edges = edge :: rest)
      (key : edge.key = some (.bytes literal))
      (compared : matchLiteral
        (parser.machine.state c.state).effectiveTransform literal
        (data.drop c.position) c.index = (.pause, read, index)) :
      Waits parser data c { c with position := c.position + read, index }
  | idle (kind : (parser.machine.state c.state).kind.AwaitsByte)
      (ended : data.drop c.position = []) : Waits parser data c c

/-- What a step comes to. -/
inductive Comes (parser : Parser) (host : Host) (data : List UInt8)
    (c : Config) :
    Step → Prop where
  | next {c' : Config} (h : Advances parser host data c c') : Comes parser host
      data c (.next c')
  | suspend {c' : Config} (h : Waits parser data c c') : Comes parser host data
      c (.suspend c')
  | stop {code : Int32} {reason : String}
      (kind : (parser.machine.state c.state).kind = .error code reason
        ∨ (parser.machine.state c.state).kind = .pause code reason) :
      Comes parser host data c (.stop c code reason)
  | stuck : Comes parser host data c .stuck

variable {parser : Parser} {host : Host} {data : List UInt8} {c c' : Config}
  {otherwise : Machine.Edge}

-- =============================================================== edges

/-- The otherwise edge of a state is one of its edges. -/
theorem otherwise_mem {state : Machine.State} {edge : Machine.Edge}
    (h : state.otherwise = some edge) : edge ∈ state.allEdges := by
  unfold State.allEdges
  rw [h]
  exact List.mem_append_right _ (List.mem_singleton.mpr rfl)

theorem edges_mem {state : Machine.State} {edge : Machine.Edge}
    (h : edge ∈ state.edges) :
    edge ∈ state.allEdges :=
  List.mem_append_left _ h

theorem find_mem {state : Machine.State} {test : Machine.Edge → Bool}
    {edge : Machine.Edge}
    (h : state.edges.find? test = some edge) : edge ∈ state.allEdges :=
  edges_mem (List.mem_of_find?_eq_some h)

/-- What a search comes to is an edge of the state. -/
theorem Finds.mem {state : Machine.State} {test : Machine.Edge → Bool}
    {spare : Machine.Edge → Option Int64} {edge : Machine.Edge}
    {value : Option Int64}
    (h : Finds state test spare edge value) : edge ∈ state.allEdges := by
  cases h with
  | keyed found => exact find_mem found
  | otherwise _ other => exact otherwise_mem other

/-- So is what a comparison comes to, which has not paused. -/
theorem Ends.mem {state : Machine.State} {edge next : Machine.Edge}
    {status : LiteralStatus} (h : Ends state edge status next)
    (hedge : edge ∈ state.edges) :
    next ∈ state.allEdges ∧ status ≠ .pause := by
  cases h with
  | complete => exact ⟨edges_mem hedge, LiteralStatus.noConfusion⟩
  | mismatch next => exact ⟨otherwise_mem next, LiteralStatus.noConfusion⟩

-- ============================================================ literals

/-- A literal leaves at most the input behind, and the last byte of a complete
one is there. -/
theorem matchLiteral_read_le (t : Transform) (literal input : List UInt8)
    (index : Nat) :
    (matchLiteral t literal input index).2.1 ≤ input.length
      ∧ ((matchLiteral t literal input index).1 ≠ .pause →
          (matchLiteral t literal input index).2.1 < input.length) := by
  induction input generalizing index with
  | nil => exact ⟨Nat.le_refl _, fun h => absurd rfl h⟩
  | cons b input ih =>
      unfold matchLiteral
      split
      · split
        · exact ⟨Nat.zero_le _, fun _ => Nat.succ_pos _⟩
        · obtain ⟨hle, hlt⟩ := ih (index + 1)
          exact ⟨Nat.succ_le_succ hle, fun h => Nat.succ_lt_succ (hlt h)⟩
      · exact ⟨Nat.zero_le _, fun _ => Nat.succ_pos _⟩

/-- A literal that pauses has compared all there is. -/
theorem matchLiteral_pause {t : Transform} {literal input : List UInt8}
    {index read i : Nat}
    (h : matchLiteral t literal input index = (.pause, read, i)) :
    read = input.length := by
  induction input generalizing index read with
  | nil =>
      cases h
      rfl
  | cons b input ih =>
      rw [matchLiteral] at h
      split at h
      · split at h
        · cases h
        · generalize hrest : matchLiteral t literal input (index + 1)
            = rest at h
          obtain ⟨status, read', i'⟩ := rest
          cases h
          rw [ih hrest]
          rfl
      · cases h

-- ============================================================== bodies

/-- Where input is left, its end is not reached. -/
theorem lt_of_drop_ne_nil {p : Nat} (h : data.drop p ≠ []) :
    p < data.length := by
  rcases Nat.lt_or_ge p data.length with hlt | hge
  · exact hlt
  · exact absurd (List.drop_eq_nil_of_le hge) h

/-- Skipping comes to the next state or waits. -/
private theorem comes_skip {field : String}
    (hkind : (parser.machine.state c.state).kind = .consume field)
    (hother : (parser.machine.state c.state).otherwise = some otherwise) :
    Comes parser host data c (skipBody data c field otherwise) := by
  unfold skipBody
  dsimp only
  split
  · rename_i henough
    exact .next (.skip hkind hother henough)
  · rename_i hshort
    exact .suspend (.skip hkind (Nat.not_le.mp hshort))

private theorem comes_pass {consumes : Bool} {next : Config}
    (hkind : (parser.machine.state c.state).kind.AwaitsByte)
    (hnext : (consumes = true → c.position < data.length) →
      Advances parser host data c next) :
    Comes parser host data c (passBody data c consumes next) := by
  unfold passBody
  split
  · rename_i hempty
    exact .suspend
      (.idle hkind (List.isEmpty_iff.mp (Bool.and_eq_true_iff.mp hempty).2))
  · rename_i hinput
    refine .next
      (hnext fun hconsumes => lt_of_drop_ne_nil fun hnil => hinput ?_)
    rw [hconsumes, hnil]
    rfl

/-- Calling a code comes to the next state, or to one that the code returns. -/
private theorem comes_call {callee : CodeId}
    (hkind : (parser.machine.state c.state).kind = .invoke callee)
    (hother : (parser.machine.state c.state).otherwise = some otherwise) :
    Comes parser host data c
      (invokeBody host c callee (parser.machine.code callee)
      (parser.machine.state c.state).edges otherwise) := by
  unfold invokeBody
  dsimp only
  split
  · rename_i edge hfound
    exact .next (.call hkind (.keyed hfound))
  · rename_i hmissed
    exact .next (.call hkind (.otherwise hmissed hother))

/-- Looking at a byte comes to the state that it leads to, or waits. -/
private theorem comes_branch
    (hkind : (parser.machine.state c.state).kind = .single
      ∨ (parser.machine.state c.state).kind = .table)
    (hother : (parser.machine.state c.state).otherwise = some otherwise) :
    Comes parser host data c
      (branchBody data c (parser.machine.state c.state).effectiveTransform
      (parser.machine.state c.state).edges otherwise) := by
  unfold branchBody
  split
  · rename_i hended
    refine .suspend (.idle ?_ hended)
    rcases hkind with hkind | hkind <;> rw [hkind] <;> trivial
  · rename_i b rest hinput
    split
    · rename_i edge hfound
      exact .next (.branch hkind hinput (.keyed hfound))
    · rename_i hmissed
      exact .next (.branch hkind hinput (.otherwise hmissed hother))

/-- A comparison comes to where it ends, or waits. -/
private theorem comes_compare
    (hkind : (parser.machine.state c.state).kind = .sequence)
    (hother : (parser.machine.state c.state).otherwise = some otherwise) :
    Comes parser host data c
      (literalBody data c (parser.machine.state c.state).effectiveTransform
      (parser.machine.state c.state).edges otherwise) := by
  unfold literalBody
  split
  · rename_i edge rest hedges
    split
    · rename_i literal hkey
      dsimp only
      split
      · rename_i hstatus
        exact .next
          (.compare hkind hedges hkey (Prod.ext hstatus rfl) .complete)
      · rename_i hstatus
        exact .suspend (.compare hkind hedges hkey (Prod.ext hstatus rfl))
      · rename_i hstatus
        exact .next (.compare hkind hedges hkey (Prod.ext hstatus rfl)
          (.mismatch hother))
    · exact .stuck
  · exact .stuck

-- =============================================================== steps

/-- A step comes out in one of these ways. -/
theorem comes_of_step (parser : Parser) (host : Host) (data : List UInt8)
    (c : Config) :
    Comes parser host data c (parser.step host data c) := by
  cases hother : (parser.machine.state c.state).otherwise with
  | none =>
      cases hkind : (parser.machine.state c.state).kind with
      | error code reason =>
          simp only [step, hother, hkind]
          exact .stop (Or.inl hkind)
      | _ =>
          simp only [step, hother, hkind]
          exact .stuck
  | some otherwise =>
      rw [step_of_some hother]
      unfold body
      have hawaits : ∀ {kind : StateKind},
          (parser.machine.state c.state).kind = kind →
          kind.AwaitsByte → (parser.machine.state c.state).kind.AwaitsByte :=
            fun h ha => h ▸ ha
      cases hkind : (parser.machine.state c.state).kind with
      | error code reason => exact .stop (Or.inl hkind)
      | pause code reason => exact .stop (Or.inr hkind)
      | consume field => exact comes_skip hkind hother
      | empty =>
          refine comes_pass (hawaits hkind trivial) fun hinput => ?_
          exact .pass hkind hother fun hreads => hinput (by rw [hreads]; rfl)
      | invoke callee => exact comes_call hkind hother
      | sequence => exact comes_compare hkind hother
      | single => exact comes_branch (Or.inl hkind) hother
      | table => exact comes_branch (Or.inr hkind) hother
      | spanStart slot callback =>
          refine comes_pass (hawaits hkind trivial) fun hinput => ?_
          exact .openSlot hkind hother (hinput rfl)
      | spanEnd slot callback =>
          refine comes_pass (hawaits hkind trivial) fun hinput => ?_
          exact .closeSlot hkind hother fun hreads =>
            hinput (by rw [hreads]; rfl)

/-- How a state has gone on. -/
theorem advances_of_step (h : parser.step host data c = .next c') :
    Advances parser host data c c' := by
  have hcomes := comes_of_step parser host data c
  rw [h] at hcomes
  cases hcomes with
  | next h => exact h

/-- How a state waits. -/
theorem waits_of_step (h : parser.step host data c = .suspend c') :
    Waits parser data c c' := by
  have hcomes := comes_of_step parser host data c
  rw [h] at hcomes
  cases hcomes with
  | suspend h => exact h

/-- A state that waits has read all there is. It is entered again, and has left
spans alone. -/
theorem suspend_frame (hpos : c.position ≤ data.length)
    (h : parser.step host data c = .suspend c') :
    c'.state = c.state ∧ c'.position = data.length ∧ c'.starts = c.starts
      ∧ c'.holders = c.holders ∧ c'.deliveries = c.deliveries := by
  have hlen : c.position + (data.drop c.position).length = data.length := by
    rw [List.length_drop]
    omega
  cases waits_of_step h with
  | skip _ _ => exact ⟨rfl, hlen, rfl, rfl, rfl⟩
  | compare _ _ _ compared =>
      refine ⟨rfl, ?_, rfl, rfl, rfl⟩
      rw [matchLiteral_pause compared]
      exact hlen
  | idle _ ended =>
      rw [ended] at hlen
      exact ⟨rfl, hlen, rfl, rfl, rfl⟩

/-- Only errors and pauses stop, and they leave the parser as it is. -/
theorem stops_of_step {code : Int32} {reason : String}
    (h : parser.step host data c = .stop c' code reason) :
    c' = c ∧ ((parser.machine.state c.state).kind = .error code reason
      ∨ (parser.machine.state c.state).kind = .pause code reason) := by
  have hcomes := comes_of_step parser host data c
  rw [h] at hcomes
  cases hcomes with
  | stop kind => exact ⟨rfl, kind⟩

/-- A state that goes on, or waits, is no error and no pause. -/
theorem goes_of_step
    (h : parser.step host data c = .next c'
      ∨ parser.step host data c = .suspend c')
    (code : Int32) (reason : String) :
    (parser.machine.state c.state).kind ≠ .error code reason
      ∧ (parser.machine.state c.state).kind ≠ .pause code reason := by
  constructor
  · intro hkind
    cases hother : (parser.machine.state c.state).otherwise <;>
      simp [step, body, hother, hkind] at h
  · intro hkind
    cases hother : (parser.machine.state c.state).otherwise <;>
      simp [step, body, hother, hkind] at h

end Parser

end Bytewise

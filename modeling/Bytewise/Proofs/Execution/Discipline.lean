/-
What a machine must keep to for its runs to be cut anywhere.

A parser that is suspended forgets the value last passed along an edge, and
hands over the bytes of open spans. Neither shows later if values are
passed right into the states that use them, and if the slots of spans are
used in turn. `Disciplined` says this of the edges of a machine; the slots
are followed by a label on every state, of what may be open there. `Held`
is what it makes of every run.
-/
import Bytewise.Proofs.Execution.Steps

namespace Bytewise

namespace Machine

/-- The state calls a code that takes a value. -/
def TakesValue (m : Machine) (id : StateId) : Prop :=
  ∃ callee, (m.state id).kind = .invoke callee
    ∧ (m.code callee).signature = .value

/-- Kinds that compare input with keys, and pass the value of the edge
taken. -/
def StateKind.Dispatches : StateKind → Prop
  | .sequence | .single | .table => True
  | _ => False

/-- Kinds that go on where they are, whatever the edge. -/
def StateKind.Stays : StateKind → Prop
  | .consume _ | .invoke _ => True
  | _ => False

/-- Kinds that stay where they are do not read keys. -/
theorem StateKind.Stays.not_dispatches {kind : StateKind} (h : kind.Stays) :
    ¬ kind.Dispatches := by
  cases kind with
  | consume field => exact id
  | invoke callee => exact id
  | _ => exact h.elim

end Machine

namespace Parser

open Machine

/-- At which states a slot may be open, and for which callback. -/
abbrev SlotLabel := StateId → SlotId → CodeId → Prop

/-- A parser whose machine passes values where they are used, and whose spans
do not get into each other's way. -/
structure Disciplined (parser : Parser) (label : SlotLabel) : Prop where
  /-- An edge into a state that takes a value brings one. -/
  value : ∀ id edge, edge ∈ (parser.machine.state id).allEdges →
    parser.machine.TakesValue edge.target →
      edge.value.isSome = true ∧ (parser.machine.state id).kind.Dispatches
  /-- Where no input is asked for, none is consumed. -/
  stays : ∀ id edge, edge ∈ (parser.machine.state id).allEdges →
    (parser.machine.state id).kind.Stays → edge.noAdvance = true
  /-- A slot is opened only while it is closed. -/
  closed : ∀ id slot callback, (parser.machine.state id).kind
    = .spanStart slot callback →
    ∀ other, ¬ label id slot other
  /-- A slot that is opened is there, and a callback that is not stored is the
  only one. -/
  known : ∀ id slot callback, (parser.machine.state id).kind
    = .spanStart slot callback →
    slot < parser.slots.length
      ∧ (parser.isSharedSlot slot = false →
        (parser.slots[slot]?).bind (·.head?) = some callback)
  /-- An open slot is closed for the callback it was opened for. -/
  ended : ∀ id slot callback, (parser.machine.state id).kind
    = .spanEnd slot callback →
    ∀ other, label id slot other → other = callback
  /-- Labels follow edges. -/
  opened : ∀ id slot callback, (parser.machine.state id).kind
    = .spanStart slot callback →
    ∀ edge ∈ (parser.machine.state id).allEdges,
      label edge.target slot callback
  kept : ∀ id slot callback, label id slot callback →
    (∀ other, (parser.machine.state id).kind ≠ .spanEnd slot other) →
      ∀ edge ∈ (parser.machine.state id).allEdges,
        label edge.target slot callback

/-- Open slots began behind the parser, and are labelled with the callback that
holds them. -/
def Held (parser : Parser) (label : SlotLabel) (c : Config) : Prop :=
  ∀ slot start, c.starts slot = some start → start ≤ c.position
    ∧ slot < parser.slots.length
    ∧ ∃ callback, parser.holder? c slot = some callback
    ∧ label c.state slot callback

variable {parser : Parser} {host : Host} {label : SlotLabel}
  {data : List UInt8} {c c' : Config}

/-- What does not touch slots keeps them held, forward and with what labels the
new state. -/
theorem Held.move (h : parser.Held label c) (starts : c'.starts = c.starts)
    (holders : c'.holders = c.holders) (position : c.position ≤ c'.position)
    (labels : ∀ slot callback, label c.state slot callback →
      label c'.state slot callback) :
    parser.Held label c' := by
  intro slot start hstart
  rw [starts] at hstart
  obtain ⟨hle, hlt, callback, hholder, hlabel⟩ := h slot start hstart
  refine ⟨Nat.le_trans hle position, hlt, callback, ?_,
    labels slot callback hlabel⟩
  unfold holder? at hholder ⊢
  rw [holders]
  exact hholder

/-- Where a call begins, slots are held that were before. -/
theorem Held.restart (h : parser.Held label c) (starts : c'.starts = c.starts)
    (holders : c'.holders = c.holders)
    (labels : ∀ slot callback, label c.state slot callback →
      label c'.state slot callback) :
    parser.Held label (Parser.restart c') := by
  intro slot start hstart
  cases hold : c.starts slot with
  | none => simp [Parser.restart, starts, hold] at hstart
  | some first =>
      obtain ⟨_, hlt, callback, hholder, hlabel⟩ := h slot first hold
      have hstart : c'.position = start := by
        simpa [Parser.restart, starts, hold] using hstart
      refine ⟨Nat.le_of_eq hstart.symm, hlt, callback, ?_,
        labels slot callback hlabel⟩
      unfold holder? at hholder ⊢
      show (if parser.isSharedSlot slot then c'.holders slot else _)
        = some callback
      rw [holders]
      exact hholder

-- ======================================================== slots held

theorem follow_position_le (c : Config) (edge : Machine.Edge)
    (value : Option Int64) :
    c.position ≤ (c.follow edge value).position := by
  show c.position ≤ if edge.noAdvance then c.position else c.position + 1
  split
  · exact Nat.le_refl _
  · exact Nat.le_succ _

/-- Following an edge from a state that does nothing with slots keeps them
held. -/
theorem Held.follow (hd : parser.Disciplined label) (h : parser.Held label c)
    (hc : c'.starts = c.starts ∧ c'.holders = c.holders
      ∧ c.position ≤ c'.position)
    {edge : Machine.Edge}
    (hedge : edge ∈ (parser.machine.state c.state).allEdges)
    (hkind : ∀ slot callback, (parser.machine.state c.state).kind
      ≠ .spanEnd slot callback)
    (value : Option Int64) : parser.Held label (c'.follow edge value) :=
  h.move hc.1 hc.2.1 (Nat.le_trans hc.2.2 (follow_position_le c' edge value))
    fun slot callback hlabel => hd.kept c.state slot callback hlabel
      (hkind slot) edge hedge

/-- Opening a slot leaves it held by the callback it is opened for. -/
theorem Held.openSlot (hd : parser.Disciplined label) (h : parser.Held label c)
    {slot : SlotId} {callback : CodeId}
    (hkind : (parser.machine.state c.state).kind = .spanStart slot callback)
    {edge : Machine.Edge}
    (hedge : edge ∈ (parser.machine.state c.state).allEdges) :
    parser.Held label
      ((c.openSlot slot callback (parser.isSharedSlot slot)).follow edge
          none) := by
  have hpos :=
    follow_position_le (c.openSlot slot callback (parser.isSharedSlot slot))
      edge none
  obtain ⟨hlt, honly⟩ := hd.known c.state slot callback hkind
  intro s start hstart
  by_cases hs : s = slot
  · subst hs
    have hstart : some c.position = some start := by
      simpa [Config.follow, Config.openSlot] using hstart
    obtain rfl := Option.some.inj hstart
    refine ⟨hpos, hlt, callback, ?_, hd.opened c.state s callback
      hkind edge hedge⟩
    unfold holder?
    cases hshared : parser.isSharedSlot s with
    | true => simp [Config.follow, Config.openSlot]
    | false => exact honly hshared
  · have hstart : c.starts s = some start := by
      simpa [Config.follow, Config.openSlot, hs] using hstart
    obtain ⟨hle, hlt, other, hholder, hlabel⟩ := h s start hstart
    refine ⟨Nat.le_trans hle hpos, hlt, other, ?_, ?_⟩
    · unfold holder? at hholder ⊢
      simpa [Config.follow, Config.openSlot, hs] using hholder
    · exact hd.kept c.state s other hlabel
        (fun k => by rw [hkind]; exact fun h => nomatch h) edge
        hedge

/-- Closing a slot leaves the others held. -/
theorem Held.closeSlot (hd : parser.Disciplined label)
    (h : parser.Held label c) {slot : SlotId} {callback : CodeId}
    (hkind : (parser.machine.state c.state).kind = .spanEnd slot callback)
    {edge : Machine.Edge}
    (hedge : edge ∈ (parser.machine.state c.state).allEdges) :
    parser.Held label ((c.closeSlot data slot callback).follow edge none) := by
  intro s start hstart
  by_cases hs : s = slot
  · subst hs
    simp [Config.follow, Config.closeSlot] at hstart
  · have hstart : c.starts s = some start := by
      simpa [Config.follow, Config.closeSlot, hs] using hstart
    obtain ⟨hle, hlt, other, hholder, hlabel⟩ := h s start hstart
    refine ⟨Nat.le_trans hle
      (follow_position_le (c.closeSlot data slot callback) edge none), hlt,
      other, hholder,
        hd.kept c.state s other hlabel (fun k heq => ?_) edge hedge⟩
    rw [hkind] at heq
    exact hs (StateKind.spanEnd.inj heq).1.symm

/-- Calling a code does nothing with slots and reads nothing. -/
theorem call_frame (c : Config) (host : Host) (callee : CodeId) (code : Code) :
    (c.call host callee code).2.starts = c.starts
      ∧ (c.call host callee code).2.holders = c.holders
      ∧ (c.call host callee code).2.position = c.position
      ∧ (c.call host callee code).2.state = c.state
      ∧ (c.call host callee code).2.deliveries = c.deliveries
      ∧ (c.call host callee code).2.index = c.index
      ∧ (c.call host callee code).2.matched = c.matched := by
  unfold Config.call
  dsimp only
  split <;> exact ⟨rfl, rfl, rfl, rfl, rfl, rfl, rfl⟩

/-- An edge that is followed where there is input, or that does not advance,
stays within it. -/
private theorem follow_position_le_length {edge : Machine.Edge}
    {value : Option Int64} (hle : c.position ≤ data.length)
    (hlt : edge.noAdvance = false → c.position < data.length) :
    (c.follow edge value).position ≤ data.length := by
  show (if edge.noAdvance then c.position else c.position + 1) ≤ data.length
  cases h : edge.noAdvance with
  | true => exact hle
  | false => exact hlt h

/-- Following an edge keeps slots held and the input, if there is a byte for an
edge that advances. -/
private theorem Held.along (hd : parser.Disciplined label)
    (h : parser.Held label c) (c' : Config)
    (hc : c'.starts = c.starts ∧ c'.holders = c.holders
      ∧ c.position ≤ c'.position)
    {edge : Machine.Edge}
    (hedge : edge ∈ (parser.machine.state c.state).allEdges)
    (hkind : ∀ slot callback, (parser.machine.state c.state).kind
      ≠ .spanEnd slot callback)
    (hle : c'.position ≤ data.length)
    (hlt : edge.noAdvance = false → c'.position < data.length)
    (value : Option Int64) :
    parser.Held label (c'.follow edge value) ∧ (c'.follow edge value).position
        ≤ data.length :=
  ⟨h.follow hd hc hedge hkind value, follow_position_le_length hle hlt⟩

/-- A step keeps what is held, and stays within the input. -/
theorem Held.next (hd : parser.Disciplined label) (h : parser.Held label c)
    (hpos : c.position ≤ data.length)
    (hstep : parser.step host data c = .next c') :
    parser.Held label c' ∧ c'.position ≤ data.length := by
  -- a kind that stays needs no byte for its edge
  have hstays : (parser.machine.state c.state).kind.Stays → ∀ {p : Nat},
      ∀ edge ∈ (parser.machine.state c.state).allEdges,
        edge.noAdvance = false →
        p < data.length := by
    intro hkind p edge hedge hreads
    rw [hd.stays c.state edge hedge hkind] at hreads
    cases hreads
  cases advances_of_step hstep with
  | @skip field otherwise kind next enough =>
      rw [List.length_drop] at enough
      refine h.along hd
        { c with position := c.position + c.fields field,
                 fields := c.fields.set field 0 }
        ⟨rfl, rfl, Nat.le_add_right _ _⟩ (otherwise_mem next)
          (by simp [kind]) ?_
        (hstays (by simp [kind, StateKind.Stays]) otherwise
          (otherwise_mem next)) _
      show c.position + c.fields field ≤ data.length
      omega
  | pass kind next input =>
      exact h.along hd c ⟨rfl, rfl, Nat.le_refl _⟩ (otherwise_mem next)
        (by simp [kind]) hpos input _
  | @call callee edge value kind found =>
      obtain ⟨hstarts, hholders, hposition, _⟩ :=
        call_frame c host callee (parser.machine.code callee)
      exact h.along hd _ ⟨hstarts, hholders, Nat.le_of_eq hposition.symm⟩
        found.mem (by simp [kind])
        (hposition ▸ hpos)
          (hstays (by simp [kind, StateKind.Stays]) edge found.mem) value
  | @compare literal edge next rest status read index kind edges key
      compared ends =>
      obtain ⟨hmem, hstatus⟩ :=
        ends.mem (by rw [edges]; exact List.mem_cons_self)
      have hread : read < (data.drop c.position).length := by
        have hread :=
          (matchLiteral_read_le
            (parser.machine.state c.state).effectiveTransform
          literal (data.drop c.position) c.index).2
        rw [compared] at hread
        exact hread hstatus
      rw [List.length_drop] at hread
      have hlt : c.position + read < data.length := by omega
      exact h.along hd { c with position := c.position + read, index }
        ⟨rfl, rfl, Nat.le_add_right _ _⟩ hmem (by simp [kind])
          (Nat.le_of_lt hlt) (fun _ => hlt) _
  | @branch b rest edge value kind input found =>
      have hlt : c.position < data.length :=
        lt_of_drop_ne_nil (by simp [input])
      refine h.along hd c ⟨rfl, rfl, Nat.le_refl _⟩ found.mem (fun _ _ => ?_)
        hpos (fun _ => hlt) _
      rcases kind with kind | kind <;> simp [kind]
  | openSlot kind next input =>
      exact ⟨h.openSlot hd kind (otherwise_mem next), follow_position_le_length
        hpos fun _ => input⟩
  | closeSlot kind next input =>
      exact ⟨h.closeSlot hd kind (otherwise_mem next),
        follow_position_le_length hpos input⟩

end Parser

end Bytewise

/-
Spans across pauses.

A host that attends to a parser feeds it one chunk after the other, and
where the parser has paused calls it again with the input from there on.
Every call begins the bytes of open spans anew. Where a chunk has ended,
they have been handed over by then; where the parser has paused, they have
not. So of a span that is open across pauses exactly what was pending at
the pauses is missing (`Gathered`).
-/
import Bytewise.Proofs.Execution.Chunks

namespace Bytewise.Parser

open Machine

-- ============================================================ sessions

/-- What happens next to a parser that a host attends to. -/
inductive Moves (parser : Parser) (host : Host) :
    List UInt8 → Config → List UInt8 → Config → Prop where
  | step {data : List UInt8} {c c' : Config}
      (h : parser.step host data c = .next c') :
      Moves parser host data c data c'
  /-- The chunk has ended, and there is another. -/
  | chunk {data : List UInt8} {c c' : Config}
      (h : parser.step host data c = .suspend c')
      (more : List UInt8) :
      Moves parser host data c (data ++ more) (restart (parser.finish data c'))
  /-- The parser has entered a pause, and is called with the input from there
  on. -/
  | resume {data : List UInt8} {c : Config} {code : Int32} {reason : String}
      {otherwise : Machine.Edge}
      (kind : (parser.machine.state c.state).kind = .pause code reason)
      (next : (parser.machine.state c.state).otherwise = some otherwise) :
      Moves parser host data c data
        (restart { c with state := otherwise.target })

/-- A parser that a host attends to, with the input so far. -/
inductive Attended (parser : Parser) (host : Host) :
    List UInt8 → Config → Prop where
  | start (first : List UInt8) : Attended parser host first
      (restart parser.init)
  | move {data data' : List UInt8} {c c' : Config}
      (h : Attended parser host data c)
      (next : parser.Moves host data c data' c') : Attended parser
        host data' c'

/-- The bytes that are pending in a slot where the parser pauses. -/
def paused (parser : Parser) (data : List UInt8) (slot : SlotId) (c : Config) :
    List UInt8 :=
  match (parser.machine.state c.state).kind with
  | .pause _ _ => c.pending data slot c.position
  | _ => []

/-- Moves that leave a slot open, with what was pending in it at the pauses on
the way. -/
inductive Leaves (parser : Parser) (host : Host) (slot : SlotId)
    (data : List UInt8) (c : Config) :
    List UInt8 → List UInt8 → Config → Prop where
  | here : Leaves parser host slot data c [] data c
  | move {lost data' data'' : List UInt8} {d d' : Config}
      (h : Leaves parser host slot data c lost data' d)
      (next : parser.Moves host data' d data'' d')
        (isOpen : (d'.starts slot).isSome = true) :
      Leaves parser host slot data c (lost ++ parser.paused data' slot d)
        data'' d'

/-- A span in the course of a session: a slot is opened, stays open for a
while, and is closed. -/
structure Spans (parser : Parser) (host : Host) (slot : SlotId)
    (callback : CodeId) (b : Config) (lost data : List UInt8)
    (e e' : Config) : Prop where
  start : ∃ data₀ b', parser.Attended host data₀ b
    ∧ (parser.machine.state b.state).kind = .spanStart slot callback
    ∧ parser.step host data₀ b = .next b'
    ∧ parser.Leaves host slot data₀ b' lost data e
  kind : ∃ other, (parser.machine.state e.state).kind = .spanEnd slot other
  close : parser.step host data e = .next e'

/-- The callback of every span gets the bytes between the start of the span and
its end. -/
def SpansDelivered (parser : Parser) : Prop :=
  ∀ host slot callback b lost data e e',
    parser.Spans host slot callback b lost data e e' →
    e'.delivered slot
      = b.delivered slot ++ ((data.take e.position).drop b.position).map
        (·, callback)

-- ============================================================== frames

variable {parser : Parser} {host : Host} {label : SlotLabel}
  {data data' : List UInt8} {b c c' : Config} {slot : SlotId}
  {callback : CodeId} {lost : List UInt8}

/-- What a step does with slots: nothing, or the state opens one, or closes
one. -/
inductive Slots (parser : Parser) (data : List UInt8) (c : Config) :
    Config → Prop where
  | none {c' : Config} (position : c.position ≤ c'.position)
      (starts : c'.starts = c.starts)
      (holders : c'.holders = c.holders)
        (deliveries : c'.deliveries = c.deliveries) :
      Slots parser data c c'
  | openSlot {slot : SlotId} {callback : CodeId} {edge : Machine.Edge}
      (kind : (parser.machine.state c.state).kind = .spanStart slot callback) :
      Slots parser data c
        ((c.openSlot slot callback (parser.isSharedSlot slot)).follow
        edge .none)
  | closeSlot {slot : SlotId} {callback : CodeId} {edge : Machine.Edge}
      (kind : (parser.machine.state c.state).kind = .spanEnd slot callback) :
      Slots parser data c ((c.closeSlot data slot callback).follow edge .none)

/-- Where an edge is followed with slots left alone, a step does nothing with
them. -/
private theorem slots_follow (c c' : Config)
    (hc : c'.starts = c.starts ∧ c'.holders = c.holders
      ∧ c'.deliveries = c.deliveries
      ∧ c.position ≤ c'.position) (edge : Machine.Edge)
    (value : Option Int64) : Slots parser data c (c'.follow edge value) :=
  .none (Nat.le_trans hc.2.2.2 (follow_position_le c' edge value)) hc.1
    hc.2.1 hc.2.2.1

/-- A step does with slots what its state says. -/
theorem slots_of_step (hstep : parser.step host data c = .next c') :
    Slots parser data c c' := by
  cases advances_of_step hstep with
  | skip _ _ _ =>
      refine slots_follow c _ ?_ _ _
      exact ⟨rfl, rfl, rfl, Nat.le_add_right _ _⟩
  | pass _ _ _ => exact slots_follow c c ⟨rfl, rfl, rfl, Nat.le_refl _⟩ _ _
  | @call callee edge value _ _ =>
      obtain ⟨hstarts, hholders, hposition, _, hdeliveries, _⟩ :=
        call_frame c host callee (parser.machine.code callee)
      exact slots_follow c _
        ⟨hstarts, hholders, hdeliveries, Nat.le_of_eq hposition.symm⟩ _ _
  | compare _ _ _ _ _ =>
      refine slots_follow c _ ?_ _ _
      exact ⟨rfl, rfl, rfl, Nat.le_add_right _ _⟩
  | branch _ _ _ => exact slots_follow c c ⟨rfl, rfl, rfl, Nat.le_refl _⟩ _ _
  | openSlot kind _ _ => exact .openSlot kind
  | closeSlot kind _ _ => exact .closeSlot kind

/-- A step from a state that opens a slot, or closes one, does so and follows
an edge. -/
theorem slot_of_step (h : parser.step host data c = .next c') :
    ((parser.machine.state c.state).kind = .spanStart slot callback →
        ∃ edge, c' = (c.openSlot slot callback
          (parser.isSharedSlot slot)).follow edge none)
      ∧ ((parser.machine.state c.state).kind = .spanEnd slot callback →
        ∃ edge, c' = (c.closeSlot data slot callback).follow edge none) := by
  cases advances_of_step h with
  | openSlot kind _ _ =>
      refine ⟨fun hkind => ?_, fun hkind => nomatch (hkind.symm.trans kind)⟩
      obtain ⟨rfl, rfl⟩ := StateKind.spanStart.inj (hkind.symm.trans kind)
      exact ⟨_, rfl⟩
  | closeSlot kind _ _ =>
      refine ⟨fun hkind => (nomatch hkind.symm.trans kind), fun hkind => ?_⟩
      obtain ⟨rfl, rfl⟩ := StateKind.spanEnd.inj (hkind.symm.trans kind)
      exact ⟨_, rfl⟩
  | branch kind _ _ =>
      constructor <;>
      · intro hkind
        rcases kind with kind | kind <;> cases hkind.symm.trans kind
  | skip kind _ _ | pass kind _ _ | call kind _ | compare kind _ _ _ _ =>
      constructor <;>
      · intro hkind
        cases hkind.symm.trans kind

-- ============================================================= keeping

/-- Whatever happens next, slots are held, and the parser stays within the
input. -/
theorem Held.moves (hd : parser.Disciplined label) (h : parser.Held label c)
    (hpos : c.position ≤ data.length)
    (next : parser.Moves host data c data' c') :
    parser.Held label c' ∧ c'.position ≤ data'.length := by
  cases next with
  | step hstep => exact h.next hd hpos hstep
  | @chunk d hsuspend more =>
      obtain ⟨hstate, hend, hstarts, hholders, _⟩ :=
        suspend_frame hpos hsuspend
      have hheld : parser.Held label d :=
        h.move hstarts hholders (hend ▸ hpos) fun _ _ hlabel => by
          rw [hstate]; exact hlabel
      refine ⟨held_restart hheld, ?_⟩
      show data.length ≤ (data ++ more).length
      rw [List.length_append]
      exact Nat.le_add_right _ _
  | @resume code reason otherwise kind next =>
      refine ⟨h.restart rfl rfl fun slot callback hlabel => ?_, hpos⟩
      exact hd.kept c.state slot callback hlabel (fun other => by simp [kind])
        otherwise (otherwise_mem next)

/-- A parser that a host attends to holds its slots. -/
theorem Attended.held (hd : parser.Disciplined label)
    (h : parser.Attended host data c) :
    parser.Held label c ∧ c.position ≤ data.length := by
  induction h with
  | start first => exact ⟨fun _ _ hstart => (nomatch hstart), Nat.zero_le _⟩
  | move _ next ih => exact ih.1.moves hd ih.2 next

-- ============================================================ gathering

/-- The parser has opened a slot at `b` and kept it open since. What it has of
the bytes it has passed, handed over or pending, is all but those lost at
pauses. -/
structure Gathered (parser : Parser) (slot : SlotId) (callback : CodeId)
    (b : Config) (lost data : List UInt8) (c : Config) : Prop where
  isOpen : (c.starts slot).isSome = true
  holder : parser.holder? c slot = some callback
  passed : b.position ≤ c.position
  bytes : ∃ bytes : List UInt8, c.delivered slot = b.delivered slot
    ++ bytes.map (·, callback)
    ∧ (bytes ++ c.pending data slot c.position).Sublist
      ((data.take c.position).drop b.position)
    ∧ c.position = b.position
      + (bytes ++ c.pending data slot c.position).length + lost.length

/-- What is gathered grows by what is passed. -/
private theorem Gathered.grow (h : parser.Gathered slot callback b lost data c)
    (hc : parser.Held label c) (hstarts : c'.starts slot = c.starts slot)
    (hholder : parser.holder? c' slot = parser.holder? c slot)
    (hdelivered : c'.delivered slot = c.delivered slot)
    (hpos : c.position ≤ c'.position) (hwithin : c'.position ≤ data.length) :
    parser.Gathered slot callback b lost data c' := by
  obtain ⟨start, hstart⟩ := Option.isSome_iff_exists.mp h.isOpen
  obtain ⟨hle, _⟩ := hc slot start hstart
  obtain ⟨bytes, hbytes, hsub, hlen⟩ := h.bytes
  have hpending : c'.pending data slot c'.position
      = c.pending data slot c.position ++ (data.take c'.position).drop
          c.position := by
    unfold Config.pending
    rw [hstarts, hstart]
    exact slice_append data hle hpos
  refine ⟨by
    rw [hstarts]; exact h.isOpen, hholder.trans h.holder,
      Nat.le_trans h.passed hpos,
    bytes, hdelivered.trans hbytes, ?_, ?_⟩
  · rw [hpending, ← List.append_assoc, slice_append data h.passed hpos]
    exact hsub.append (List.Sublist.refl _)
  · rw [hpending, ← List.append_assoc, List.length_append, List.length_drop,
      List.length_take,
      Nat.min_eq_left hwithin]
    omega

/-- Nothing is pending where a call begins. -/
theorem pending_restart (c : Config) (data : List UInt8) (slot : SlotId) :
    (restart c).pending data slot c.position = [] := by
  have hstarts : (restart c).starts slot = (c.starts slot).map fun _ =>
    c.position := rfl
  unfold Config.pending
  rw [hstarts]
  cases c.starts slot with
  | none => rfl
  | some start => simp

/-- A state that goes on, or waits, is not a pause. -/
private theorem paused_eq_nil
    (h : parser.step host data c = .next c'
      ∨ parser.step host data c = .suspend c') :
    parser.paused data slot c = [] := by
  unfold paused
  split
  · rename_i code reason hkind
    exact absurd hkind (goes_of_step h code reason).2
  · rfl

/-- A step that leaves the slot open gathers what it passes. -/
private theorem Gathered.step (hd : parser.Disciplined label)
    (h : parser.Gathered slot callback b lost data c)
    (hc : parser.Held label c) (hpos : c.position ≤ data.length)
    (hstep : parser.step host data c = .next c')
    (isOpen : (c'.starts slot).isSome = true) :
    parser.Gathered slot callback b lost data c' := by
  obtain ⟨_, hwithin⟩ := hc.next hd hpos hstep
  cases slots_of_step hstep with
  | none position starts holders deliveries =>
      refine h.grow hc (congrFun starts slot) ?_ ?_ position hwithin
      · unfold holder?
        rw [holders]
      · unfold Config.delivered
        rw [deliveries]
  | @openSlot s other edge kind =>
      obtain ⟨start, hstart⟩ := Option.isSome_iff_exists.mp h.isOpen
      obtain ⟨_, _, held, _, hlabel⟩ := hc slot start hstart
      have hs : slot ≠ s := by
        intro heq
        subst heq
        exact hd.closed c.state slot other kind held hlabel
      refine h.grow hc (if_neg hs) ?_ rfl
        (follow_position_le _ edge none) hwithin
      unfold holder?
      simp [Config.follow, Config.openSlot, hs]
  | @closeSlot s other edge kind =>
      have hs : slot ≠ s := by
        intro heq
        subst heq
        simp [Config.follow, Config.closeSlot] at isOpen
      refine h.grow hc (if_neg hs) rfl ?_
        (follow_position_le _ edge none) hwithin
      refine (delivered_append c [⟨s, other, c.pending data s c.position⟩]
        slot).trans ?_
      simp [Ne.symm hs]

/-- Where a chunk ends, what is pending is handed over. -/
private theorem Gathered.chunk
    (h : parser.Gathered slot callback b lost data c)
    (hc : parser.Held label c) (hpos : c.position ≤ data.length)
    (hsuspend : parser.step host data c = .suspend c') (more : List UInt8) :
    parser.Gathered slot callback b lost (data ++ more)
        (restart (parser.finish data c')) := by
  obtain ⟨hstate, hended, hstarts, hholders, hdeliveries⟩ :=
    suspend_frame hpos hsuspend
  have hheld : parser.Held label c' :=
    hc.move hstarts hholders (hended ▸ hpos) fun _ _ hlabel => by
      rw [hstate]; exact hlabel
  have hholder : parser.holder? c' slot = parser.holder? c slot := by
    unfold holder?
    rw [hholders]
  -- first to the end of the chunk, then into the next call
  have hend : parser.Gathered slot callback b lost data
      { c' with position := data.length } := by
    refine h.grow hc (congrFun hstarts slot) hholder ?_ hpos (Nat.le_refl _)
    show c'.delivered slot = c.delivered slot
    unfold Config.delivered
    rw [hdeliveries]
  obtain ⟨bytes, hbytes, hsub, hlen⟩ := hend.bytes
  have hhanded : (parser.finish data c').delivered slot = b.delivered slot
      ++ (bytes ++ c'.pending data slot data.length).map (·, callback) := by
    rw [delivered_finish hheld]
    unfold Parser.tally unflushed
    rw [hend.holder, hbytes, List.map_append, List.append_assoc]
    rfl
  have hnone : (restart (parser.finish data c')).pending (data ++ more) slot
      data.length = [] :=
    pending_restart (parser.finish data c') (data ++ more) slot
  refine ⟨?_, hend.holder, hend.passed, _, hhanded, ?_, ?_⟩
  · show ((c'.starts slot).map fun _ => data.length).isSome = true
    rw [Option.isSome_map]
    exact hend.isOpen
  · show (_ ++ (restart (parser.finish data c')).pending (data ++ more) slot
      data.length).Sublist
      (((data ++ more).take data.length).drop b.position)
    rw [hnone, List.append_nil, List.take_append_of_le_length (Nat.le_refl _)]
    exact hsub
  · show data.length = b.position
      + (_ ++ (restart (parser.finish data c')).pending (data ++ more) slot
      data.length).length + lost.length
    rw [hnone, List.append_nil]
    exact hlen

/-- Where the parser pauses, what is pending is lost. -/
private theorem Gathered.resume
    (h : parser.Gathered slot callback b lost data c) (target : StateId) :
    parser.Gathered slot callback b (lost ++ c.pending data slot c.position)
      data (restart { c with state := target }) := by
  obtain ⟨bytes, hbytes, hsub, hlen⟩ := h.bytes
  have hnone : (restart { c with state := target }).pending data slot
      c.position = [] :=
    pending_restart { c with state := target } data slot
  refine ⟨?_, h.holder, h.passed, bytes, hbytes, ?_, ?_⟩
  · show ((c.starts slot).map fun _ => c.position).isSome = true
    rw [Option.isSome_map]
    exact h.isOpen
  · show (bytes ++ (restart { c with state := target }).pending data slot
      c.position).Sublist
      ((data.take c.position).drop b.position)
    rw [hnone, List.append_nil]
    exact (List.sublist_append_left _ _).trans hsub
  · show c.position = b.position
      + (bytes ++ (restart { c with state := target }).pending data slot
      c.position).length + (lost ++ c.pending data slot c.position).length
    rw [hnone, List.append_nil, List.length_append]
    rw [List.length_append] at hlen
    omega

/-- While a slot stays open, its bytes are gathered. -/
theorem Gathered.moves (hd : parser.Disciplined label)
    (h : parser.Gathered slot callback b lost data c)
    (hc : parser.Held label c) (hpos : c.position ≤ data.length)
    (next : parser.Moves host data c data' c')
    (isOpen : (c'.starts slot).isSome = true) :
    parser.Gathered slot callback b (lost ++ parser.paused data slot c)
        data' c' := by
  cases next with
  | step hstep =>
      rw [paused_eq_nil (Or.inl hstep), List.append_nil]
      exact h.step hd hc hpos hstep isOpen
  | chunk hsuspend more =>
      rw [paused_eq_nil (Or.inr hsuspend), List.append_nil]
      exact h.chunk hc hpos hsuspend more
  | resume kind next =>
      unfold paused
      rw [kind]
      exact h.resume _

/-- A span that has just been opened has gathered what the parser has passed
since. -/
theorem gathered_of_start (hd : parser.Disciplined label)
    (hc : parser.Held label c) (hpos : c.position ≤ data.length)
    (hkind : (parser.machine.state c.state).kind = .spanStart slot callback)
    (hstep : parser.step host data c = .next c') :
    parser.Gathered slot callback c [] data c' := by
  obtain ⟨_, hwithin⟩ := hc.next hd hpos hstep
  obtain ⟨edge, rfl⟩ := (slot_of_step hstep).1 hkind
  have hle :=
    follow_position_le (c.openSlot slot callback (parser.isSharedSlot slot))
      edge none
  generalize hd' : (c.openSlot slot callback (parser.isSharedSlot slot)).follow
    edge none = d at *
  have hstart : d.starts slot = some c.position := by
    rw [← hd']
    exact if_pos rfl
  have hholder : parser.holder? d slot = some callback := by
    rw [← hd']
    unfold holder?
    cases hshared : parser.isSharedSlot slot with
    | true => simp [Config.follow, Config.openSlot]
    | false => exact (hd.known c.state slot callback hkind).2 hshared
  have hpending : d.pending data slot d.position = (data.take d.position).drop
      c.position := by
    unfold Config.pending
    rw [hstart]
  have hdelivered : d.delivered slot = c.delivered slot := by
    rw [← hd']
    rfl
  have hle : c.position ≤ d.position := hle
  refine ⟨by rw [hstart]; rfl, hholder, hle, [], ?_, ?_, ?_⟩
  · rw [hdelivered, List.map_nil, List.append_nil]
  · show (d.pending data slot d.position).Sublist _
    exact hpending ▸ List.Sublist.refl _
  · rw [List.nil_append, hpending, List.length_drop, List.length_take,
      Nat.min_eq_left hwithin]
    show d.position = c.position + (d.position - c.position) + 0
    omega

/-- A slot that stays open has gathered its bytes. -/
theorem Leaves.gathered (hd : parser.Disciplined label)
    (path : parser.Leaves host slot data c lost data' c')
    (hc : parser.Held label c) (hpos : c.position ≤ data.length)
    (h : parser.Gathered slot callback b [] data c) :
    parser.Gathered slot callback b lost data' c' ∧ parser.Held label c'
      ∧ c'.position ≤ data'.length := by
  induction path with
  | here => exact ⟨h, hc, hpos⟩
  | move _ next isOpen ih =>
      obtain ⟨hgathered, hheld, hwithin⟩ := ih
      exact ⟨hgathered.moves hd hheld hwithin next isOpen,
        hheld.moves hd hwithin next⟩

/-- Of the bytes between the start of a span and its end, the callback of the
span gets all but those that were pending at pauses. -/
theorem Disciplined.delivers (hd : parser.Disciplined label) {e e' : Config}
    (h : parser.Spans host slot callback b lost data e e') :
    ∃ bytes : List UInt8, e'.delivered slot = b.delivered slot ++ bytes.map
      (·, callback)
      ∧ bytes.Sublist ((data.take e.position).drop b.position)
      ∧ bytes.length + lost.length
          = ((data.take e.position).drop b.position).length := by
  obtain ⟨data₀, b', hattended, hopens, hstep, path⟩ := h.start
  obtain ⟨hheld, hpos⟩ := hattended.held hd
  obtain ⟨hheld', hpos'⟩ := hheld.next hd hpos hstep
  obtain ⟨hgathered, hend, hwithin⟩ :=
    path.gathered hd hheld' hpos'
      (gathered_of_start hd hheld hpos hopens hstep)
  obtain ⟨other, hcloses⟩ := h.kind
  obtain ⟨edge, rfl⟩ := (slot_of_step h.close).2 hcloses
  -- the slot is closed for the callback that holds it
  obtain ⟨start, hstart⟩ := Option.isSome_iff_exists.mp hgathered.isOpen
  obtain ⟨_, _, held, hholder, hlabel⟩ := hend slot start hstart
  obtain rfl : held = callback :=
    Option.some.inj (hholder.symm.trans hgathered.holder)
  obtain rfl : held = other := hd.ended e.state slot other hcloses held hlabel
  obtain ⟨bytes, hbytes, hsub, hlen⟩ := hgathered.bytes
  refine ⟨bytes ++ e.pending data slot e.position, ?_, hsub, ?_⟩
  · refine (delivered_append e [⟨slot, held, e.pending data slot e.position⟩]
      slot).trans ?_
    rw [hbytes, List.map_append, List.append_assoc]
    simp
  · rw [List.length_drop, List.length_take, Nat.min_eq_left hwithin]
    omega

end Bytewise.Parser

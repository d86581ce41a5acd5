/-
Runs that differ only in what has been handed over.

Two parsers in the same state have the same future if they differ at most
in a value that is not used any more and in where they have cut the bytes
of open spans. `tally` joins what has been handed over from a slot with
what is pending there; parsers are `Alike` if all tallies agree, and every
step keeps them alike.
-/
import Bytewise.Proofs.Execution.Discipline

namespace Bytewise.Parser

open Machine

-- ============================================================ tallies

/-- The bytes handed over from a slot, each with the callback that got it. -/
def Config.delivered (c : Config) (slot : SlotId) : List (UInt8 × CodeId) :=
  (c.deliveries.filter (·.slot == slot)).flatMap fun d => d.bytes.map
    (·, d.callback)

/-- The bytes pending in a slot, each with the callback that holds it. -/
def unflushed (parser : Parser) (data : List UInt8) (c : Config)
    (slot : SlotId) :
    List (UInt8 × CodeId) :=
  match parser.holder? c slot with
  | some callback => (c.pending data slot c.position).map (·, callback)
  | none => []

/-- The bytes of a slot so far, handed over or pending. -/
def tally (parser : Parser) (data : List UInt8) (c : Config) (slot : SlotId) :
    List (UInt8 × CodeId) :=
  c.delivered slot ++ parser.unflushed data c slot

/-- Parsers with the same future. -/
structure Alike (parser : Parser) (data : List UInt8) (c c' : Config) :
    Prop where
  state : c.state = c'.state
  position : c.position = c'.position
  index : c.index = c'.index
  matched : parser.machine.TakesValue c.state → c.matched = c'.matched
  fields : c.fields = c'.fields
  opened : ∀ slot, (c.starts slot).isSome = (c'.starts slot).isSome
  holders : c.holders = c'.holders
  calls : c.calls = c'.calls
  tally : ∀ slot, parser.tally data c slot = parser.tally data c' slot

variable {parser : Parser} {host : Host} {label : SlotLabel}
  {data : List UInt8} {c c' : Config}

/-- What is handed over last comes last. -/
theorem delivered_append (c : Config) (deliveries : List Delivery)
    (slot : SlotId) :
    ({ c with deliveries := c.deliveries ++ deliveries } : Config).delivered
      slot = c.delivered slot
        ++ (deliveries.filter (·.slot == slot)).flatMap fun d => d.bytes.map
            (·, d.callback) := by
  unfold Config.delivered
  rw [List.filter_append, List.flatMap_append]

/-- A piece of the input is a shorter piece and what follows it. -/
theorem slice_append (data : List UInt8) {start p q : Nat} (hp : start ≤ p)
    (hq : p ≤ q) :
    (data.take q).drop start = (data.take p).drop start
        ++ (data.take q).drop p := by
  have hsplit : data.take q = data.take p ++ (data.take q).drop p := by
    have := List.take_append_drop p (data.take q)
    rw [List.take_take, Nat.min_eq_left hq] at this
    exact this.symm
  rcases Nat.le_total p data.length with hle | hge
  · have hlen : start ≤ (data.take p).length := by
      rw [List.length_take, Nat.min_eq_left hle]
      exact hp
    calc (data.take q).drop start
        = (data.take p ++ (data.take q).drop p).drop start := by rw [← hsplit]
      _ = (data.take p).drop start ++ (data.take q).drop p :=
        List.drop_append_of_le_length hlen
  · rw [List.take_of_length_le hge, List.take_of_length_le
      (Nat.le_trans hge hq),
      List.drop_of_length_le hge, List.append_nil]

/-- While the parser moves on, what is pending in open slots grows by what it
passes. -/
theorem tally_advance (h : parser.Held label c) {p : Nat} (hp : c.position ≤ p)
    (hc : c'.starts = c.starts ∧ c'.holders = c.holders
      ∧ c'.deliveries = c.deliveries)
    (hpos : c'.position = p) (slot : SlotId) :
    parser.tally data c' slot = parser.tally data c slot
      ++ match c.starts slot, parser.holder? c slot with
        | some _, some callback =>
          ((data.take p).drop c.position).map (·, callback)
        | _, _ => [] := by
  obtain ⟨hstarts, hholders, hdeliveries⟩ := hc
  have hholder : parser.holder? c' slot = parser.holder? c slot := by
    unfold holder?
    rw [hholders]
  unfold tally unflushed Config.pending
  rw [hholder, hstarts, hpos]
  have hdelivered : c'.delivered slot = c.delivered slot := by
    unfold Config.delivered
    rw [hdeliveries]
  rw [hdelivered, List.append_assoc]
  congr 1
  cases hstart : c.starts slot with
  | none => cases parser.holder? c slot <;> rfl
  | some start =>
      obtain ⟨hle, _, callback, hcallback, _⟩ := h slot start hstart
      rw [hcallback]
      dsimp only
      rw [slice_append data hle hp, List.map_append]

/-- The holder of a slot is read off what is stored. -/
theorem Alike.holder (h : parser.Alike data c c') (slot : SlotId) :
    parser.holder? c slot = parser.holder? c' slot := by
  unfold holder?
  rw [h.holders]

/-- Parsers that are alike stay so while they move on together, slots apart. -/
theorem Alike.advance (h : parser.Alike data c c') (hc : parser.Held label c)
    (hc' : parser.Held label c') {d d' : Config} {p : Nat}
    (hp : c.position ≤ p)
    (hd : d.starts = c.starts ∧ d.holders = c.holders
      ∧ d.deliveries = c.deliveries)
    (hd' : d'.starts = c'.starts ∧ d'.holders = c'.holders
      ∧ d'.deliveries = c'.deliveries)
    (hpos : d.position = p) (hpos' : d'.position = p)
    (hstate : d.state = d'.state) (hindex : d.index = d'.index)
    (hfields : d.fields = d'.fields) (hcalls : d.calls = d'.calls)
    (hmatched : parser.machine.TakesValue d.state → d.matched = d'.matched) :
    parser.Alike data d d' where
  state := hstate
  position := by rw [hpos, hpos']
  index := hindex
  matched := hmatched
  fields := hfields
  opened slot := by rw [hd.1, hd'.1, h.opened]
  holders := by rw [hd.2.1, hd'.2.1, h.holders]
  calls := hcalls
  tally slot := by
    rw [tally_advance hc hp hd hpos, tally_advance hc'
      (by rw [← h.position]; exact hp) hd' hpos',
      h.tally slot, h.position, h.holder slot]
    congr 1
    have hopened := h.opened slot
    cases hs : c.starts slot with
    | none =>
        rw [hs] at hopened
        cases hs' : c'.starts slot with
        | none => rfl
        | some start' => rw [hs'] at hopened; cases hopened
    | some start =>
        rw [hs] at hopened
        cases hs' : c'.starts slot with
        | none => rw [hs'] at hopened; cases hopened
        | some start' => cases parser.holder? c' slot <;> rfl

/-- A value that is used has just been passed, so parsers that follow one edge
agree on it. -/
private theorem follow_matched (hd : parser.Disciplined label) {id : StateId}
    {edge : Machine.Edge} (hedge : edge ∈ (parser.machine.state id).allEdges)
    {value : Option Int64}
    (hvalue : (parser.machine.state id).kind.Dispatches → value = edge.value)
    (d d' : Config)
    (htakes : parser.machine.TakesValue (d.follow edge value).state) :
    (d.follow edge value).matched = (d'.follow edge value).matched := by
  obtain ⟨hsome, hkind⟩ := hd.value id edge hedge htakes
  obtain ⟨v, hv⟩ := Option.isSome_iff_exists.mp hsome
  rw [hvalue hkind, hv]
  rfl

/-- Parsers that are alike stay so along an edge. -/
theorem Alike.follow (hd : parser.Disciplined label)
    (h : parser.Alike data c c') (hc : parser.Held label c)
    (hc' : parser.Held label c') {id : StateId} {edge : Machine.Edge}
    (hedge : edge ∈ (parser.machine.state id).allEdges) {value : Option Int64}
    (hvalue : (parser.machine.state id).kind.Dispatches → value = edge.value) :
    parser.Alike data (c.follow edge value) (c'.follow edge value) :=
  h.advance hc hc' (follow_position_le c edge value) ⟨rfl, rfl, rfl⟩
    ⟨rfl, rfl, rfl⟩ rfl
    (by
      show (if edge.noAdvance then c'.position else c'.position + 1)
        = if edge.noAdvance then c.position else c.position + 1
      rw [h.position])
    rfl h.index h.fields h.calls (follow_matched hd hedge hvalue c c')

/-- The bodies of two parsers come to the same, with parsers alike. -/
inductive StepAlike (parser : Parser) (data : List UInt8) :
    Step → Step → Prop where
  | next {c c' : Config} (h : parser.Alike data c c') : StepAlike parser data
      (.next c) (.next c')
  | suspend {c c' : Config} (h : parser.Alike data c c') :
      StepAlike parser data (.suspend c) (.suspend c')
  | stop {c c' : Config} {code : Int32} {reason : String}
      (h : parser.Alike data c c') :
      StepAlike parser data (.stop c code reason) (.stop c' code reason)
  | stuck : StepAlike parser data .stuck .stuck

/-- Parsers that are alike skip alike. -/
private theorem skip_alike (hd : parser.Disciplined label)
    (h : parser.Alike data c c') (hc : parser.Held label c)
    (hc' : parser.Held label c') {field : String} {otherwise : Machine.Edge}
    (hmem : otherwise ∈ (parser.machine.state c.state).allEdges)
    (hkind : (parser.machine.state c.state).kind = .consume field) :
    StepAlike parser data (skipBody data c field otherwise)
        (skipBody data c' field otherwise) := by
  have hnot : ¬ parser.machine.TakesValue c.state := by
    intro hcalled
    obtain ⟨callee, hcallee, _⟩ := hcalled
    rw [hkind] at hcallee
    cases hcallee
  unfold skipBody
  dsimp only
  rw [← h.position, ← h.fields]
  split
  · have hmoved : ∀ edge : Machine.Edge, edge = otherwise →
        parser.Alike data
          (({ c with position := c.position + c.fields field,
                     fields := c.fields.set field 0 } :
            Config).follow edge edge.value)
          (({ c' with position := c.position + c.fields field,
                      fields := c.fields.set field 0 } :
            Config).follow edge edge.value) := by
      intro edge heq
      obtain rfl := heq
      refine h.advance hc hc' (Nat.le_trans (Nat.le_add_right _ _)
          (follow_position_le
            { c with position := c.position + c.fields field }
            edge edge.value))
        ⟨rfl, rfl, rfl⟩ ⟨rfl, rfl, rfl⟩ rfl rfl rfl h.index rfl h.calls ?_
      exact follow_matched hd hmem (fun _ => rfl)
        { c with position := c.position + c.fields field }
        { c' with position := c.position + c.fields field }
    exact .next (hmoved otherwise rfl)
  · exact .suspend (h.advance hc hc' (Nat.le_add_right _ _) ⟨rfl, rfl, rfl⟩
      ⟨rfl, rfl, rfl⟩ rfl
      rfl h.state h.index rfl h.calls fun htakes => absurd htakes hnot)

private theorem pass_alike (h : parser.Alike data c c') {consumes : Bool}
    {next next' : Config} (hnext : parser.Alike data next next') :
    StepAlike parser data (passBody data c consumes next)
        (passBody data c' consumes next') := by
  unfold passBody
  rw [← h.position]
  split
  · exact .suspend h
  · exact .next hnext

private theorem branch_alike (hd : parser.Disciplined label)
    (h : parser.Alike data c c') (hc : parser.Held label c)
    (hc' : parser.Held label c') {t : Transform} {otherwise : Machine.Edge}
    (hmem : otherwise ∈ (parser.machine.state c.state).allEdges) :
    StepAlike parser data
      (branchBody data c t (parser.machine.state c.state).edges otherwise)
      (branchBody data c' t (parser.machine.state c.state).edges
          otherwise) := by
  unfold branchBody
  rw [← h.position]
  split
  · exact .suspend h
  · split
    · rename_i edge hfind
      exact .next (h.follow hd hc hc' (find_mem hfind) fun _ => rfl)
    · exact .next (h.follow hd hc hc' hmem fun _ => rfl)

private theorem literal_alike (hd : parser.Disciplined label)
    (h : parser.Alike data c c') (hc : parser.Held label c)
    (hc' : parser.Held label c') {t : Transform} {otherwise : Machine.Edge}
    (hmem : otherwise ∈ (parser.machine.state c.state).allEdges)
    (hkind : (parser.machine.state c.state).kind = .sequence) :
    StepAlike parser data
      (literalBody data c t (parser.machine.state c.state).edges otherwise)
      (literalBody data c' t (parser.machine.state c.state).edges
          otherwise) := by
  have hnot : ¬ parser.machine.TakesValue c.state := by
    intro hcalled
    obtain ⟨callee, hcallee, _⟩ := hcalled
    rw [hkind] at hcallee
    cases hcallee
  unfold literalBody
  split
  · rename_i edge rest hedges
    have hedge : edge ∈ (parser.machine.state c.state).allEdges :=
      edges_mem (by rw [hedges]; exact List.mem_cons_self)
    split
    · rename_i literal _
      rw [← h.position, ← h.index]
      obtain ⟨status, read, index⟩ :=
        matchLiteral t literal (data.drop c.position) c.index
      have hgo : ∀ edge ∈ (parser.machine.state c.state).allEdges,
          parser.Alike data
          (({ c with position := c.position + read, index } : Config).follow
            edge edge.value)
          (({ c' with position := c.position + read, index } : Config).follow
              edge edge.value) := by
        intro edge hedge
        refine h.advance hc hc' (Nat.le_trans (Nat.le_add_right _ _)
            (follow_position_le { c with position := c.position + read, index }
              edge edge.value))
          ⟨rfl, rfl, rfl⟩ ⟨rfl, rfl, rfl⟩ rfl rfl rfl rfl h.fields h.calls ?_
        exact follow_matched hd hedge (fun _ => rfl)
          { c with position := c.position + read, index }
          { c' with position := c.position + read, index }
      cases status with
      | complete => exact .next (hgo edge hedge)
      | pause =>
          exact .suspend
            (h.advance hc hc' (Nat.le_add_right _ _) ⟨rfl, rfl, rfl⟩
            ⟨rfl, rfl, rfl⟩ rfl
            rfl h.state rfl h.fields h.calls fun htakes => absurd htakes hnot)
      | mismatch => exact .next (hgo otherwise hmem)
    · exact .stuck
  · exact .stuck

/-- A code returns the same to parsers that are alike, and leaves them
alike. -/
theorem Alike.call (h : parser.Alike data c c') (host : Host)
    (hc : parser.Held label c) (hc' : parser.Held label c') {callee : CodeId}
    (hkind : (parser.machine.state c.state).kind = .invoke callee) :
    (c.call host callee (parser.machine.code callee)).1
        = (c'.call host callee (parser.machine.code callee)).1
      ∧ parser.Alike data (c.call host callee (parser.machine.code callee)).2
          (c'.call host callee (parser.machine.code callee)).2 := by
  have hvalue : (if (parser.machine.code callee).signature == .value then
      c.matched else none)
      = if (parser.machine.code callee).signature == .value then
          c'.matched else none := by
    split
    · rename_i hsig
      exact h.matched ⟨callee, hkind, beq_iff_eq.mp hsig⟩
    · rfl
  have hmove : ∀ d d' : Config,
      d.state = c.state ∧ d'.state = c'.state →
      d.position = c.position ∧ d'.position = c'.position →
      d.index = c.index ∧ d'.index = c'.index →
      d.matched = c.matched ∧ d'.matched = c'.matched →
      d.starts = c.starts ∧ d.holders = c.holders
        ∧ d.deliveries = c.deliveries →
      d'.starts = c'.starts ∧ d'.holders = c'.holders
        ∧ d'.deliveries = c'.deliveries →
      d.fields = d'.fields → d.calls = d'.calls → parser.Alike data d d' := by
    intro d d' hstate hposition hindex hmatched hs hs' hfields hcalls
    refine h.advance hc hc' (Nat.le_refl _) hs hs' hposition.1
      (hposition.2.trans h.position.symm) ?_ ?_ hfields hcalls fun htakes => ?_
    · rw [hstate.1, hstate.2, h.state]
    · rw [hindex.1, hindex.2, h.index]
    · rw [hmatched.1, hmatched.2]
      rw [hstate.1] at htakes
      exact h.matched htakes
  unfold Config.call
  dsimp only
  rw [hvalue, ← h.calls, ← h.fields]
  split
  · exact ⟨rfl, hmove _ _ ⟨rfl, rfl⟩ ⟨rfl, rfl⟩ ⟨rfl, rfl⟩ ⟨rfl, rfl⟩
      ⟨rfl, rfl, rfl⟩ ⟨rfl, rfl, rfl⟩
      rfl rfl⟩
  · exact ⟨rfl, hmove _ _ ⟨rfl, rfl⟩ ⟨rfl, rfl⟩ ⟨rfl, rfl⟩ ⟨rfl, rfl⟩
      ⟨rfl, rfl, rfl⟩ ⟨rfl, rfl, rfl⟩
      rfl rfl⟩

private theorem invoke_alike (hd : parser.Disciplined label)
    (h : parser.Alike data c c') (hc : parser.Held label c)
    (hc' : parser.Held label c') {callee : CodeId} {otherwise : Machine.Edge}
    (hmem : otherwise ∈ (parser.machine.state c.state).allEdges)
    (hkind : (parser.machine.state c.state).kind = .invoke callee) :
    StepAlike parser data
      (invokeBody host c callee (parser.machine.code callee)
        (parser.machine.state c.state).edges otherwise)
      (invokeBody host c' callee (parser.machine.code callee)
        (parser.machine.state c.state).edges otherwise) := by
  obtain ⟨hresult, hcalled⟩ := h.call host hc hc' hkind
  have hheld : ∀ d : Config, parser.Held label d →
      parser.Held label
          (d.call host callee (parser.machine.code callee)).2 := by
    intro d hheld
    obtain ⟨hstarts, hholders, hposition, hstate, _⟩ :=
      call_frame d host callee (parser.machine.code callee)
    exact hheld.move hstarts hholders (Nat.le_of_eq hposition.symm)
        fun _ _ hlabel => by
      rw [hstate]
      exact hlabel
  have hnot : ∀ value : Option Int64, ∀ edge : Machine.Edge,
      (parser.machine.state c.state).kind.Dispatches → value = edge.value := by
    intro value edge hdispatches
    rw [hkind] at hdispatches
    exact hdispatches.elim
  unfold invokeBody
  dsimp only
  rw [← hresult]
  split
  · rename_i edge hfind
    exact .next (hcalled.follow hd (hheld c hc) (hheld c' hc') (find_mem hfind)
      (hnot _ edge))
  · exact .next
      (hcalled.follow hd (hheld c hc) (hheld c' hc') hmem (hnot _ otherwise))

-- ========================================================= span bodies

/-- What a parser that opens a slot has of it: what it passes from there on. -/
private theorem tally_open (hd : parser.Disciplined label)
    (hc : parser.Held label c) {slot : SlotId} {callback : CodeId}
    (hkind : (parser.machine.state c.state).kind = .spanStart slot callback)
    (edge : Machine.Edge) (s : SlotId) :
    parser.tally data
      ((c.openSlot slot callback (parser.isSharedSlot slot)).follow edge none)
      s
      = parser.tally data (c.follow edge none) s
        ++ if s = slot then
            ((data.take (c.follow edge none).position).drop c.position).map
              (·, callback)
          else [] := by
  by_cases hs : s = slot
  · subst hs
    have hclosed : c.starts s = none := by
      cases hstart : c.starts s with
      | none => rfl
      | some start =>
          obtain ⟨_, _, other, _, hlabel⟩ := hc s start hstart
          exact absurd hlabel (hd.closed c.state s callback hkind other)
    have hnone : parser.unflushed data (c.follow edge none) s = [] := by
      unfold unflushed Config.pending
      rw [show (c.follow edge none).starts s = none from hclosed]
      cases parser.holder? (c.follow edge none) s <;> rfl
    have hholder : parser.holder?
        ((c.openSlot s callback (parser.isSharedSlot s)).follow edge none) s
            = some callback := by
      unfold holder?
      cases hshared : parser.isSharedSlot s with
      | true => simp [Config.follow, Config.openSlot]
      | false => exact (hd.known c.state s callback hkind).2 hshared
    unfold tally
    rw [hnone, List.append_nil, if_pos rfl]
    unfold unflushed Config.pending
    rw [hholder]
    have hstart : ((c.openSlot s callback (parser.isSharedSlot s)).follow edge
        none).starts s = some c.position := if_pos rfl
    rw [hstart]
    rfl
  · have hholder : parser.holder?
        ((c.openSlot slot callback (parser.isSharedSlot slot)).follow
          edge none) s = parser.holder? (c.follow edge none) s := by
      unfold holder?
      simp [Config.follow, Config.openSlot, hs]
    have hstart : ((c.openSlot slot callback (parser.isSharedSlot slot)).follow
        edge none).starts s
        = (c.follow edge none).starts s := if_neg hs
    rw [if_neg hs, List.append_nil]
    unfold tally unflushed Config.pending
    rw [hholder, hstart]
    rfl

/-- Closing a slot hands over what is pending, and no tally shows it. -/
private theorem tally_close (hd : parser.Disciplined label)
    (hc : parser.Held label c) {slot : SlotId} {callback : CodeId}
    (hkind : (parser.machine.state c.state).kind = .spanEnd slot callback)
    (edge : Machine.Edge) (s : SlotId) :
    parser.tally data ((c.closeSlot data slot callback).follow edge none) s
      = if s = slot then parser.tally data c s else parser.tally data
          (c.follow edge none) s := by
  have hdelivered :
      ((c.closeSlot data slot callback).follow edge none).delivered s
      = c.delivered s ++ if s = slot then (c.pending data slot c.position).map
          (·, callback)
          else [] := by
    have :=
      delivered_append c [⟨slot, callback, c.pending data slot c.position⟩] s
    refine Eq.trans this ?_
    by_cases hs : s = slot
    · simp [hs]
    · simp [hs, Ne.symm hs]
  by_cases hs : s = slot
  · subst hs
    rw [if_pos rfl]
    unfold tally
    rw [hdelivered, if_pos rfl]
    have hnone : parser.unflushed data
        ((c.closeSlot data s callback).follow edge none) s = [] := by
      have hstart : ((c.closeSlot data s callback).follow edge none).starts s
        = none := if_pos rfl
      unfold unflushed Config.pending
      rw [hstart]
      cases parser.holder? ((c.closeSlot data s callback).follow edge none) s
        <;> rfl
    rw [hnone, List.append_nil]
    congr 1
    unfold unflushed
    cases hstart : c.starts s with
    | none =>
        have hpending : c.pending data s c.position = [] := by
          unfold Config.pending
          rw [hstart]
        rw [hpending]
        cases parser.holder? c s <;> rfl
    | some start =>
        obtain ⟨_, _, other, hholder, hlabel⟩ := hc s start hstart
        rw [hholder, hd.ended c.state s callback hkind other hlabel]
  · have hstart : ((c.closeSlot data slot callback).follow edge none).starts s
        = (c.follow edge none).starts s := if_neg hs
    rw [if_neg hs]
    unfold tally
    rw [hdelivered, if_neg hs, List.append_nil]
    unfold unflushed Config.pending
    rw [hstart]
    rfl

/-- They stay alike when they open a slot. -/
private theorem Alike.openSlot (hd : parser.Disciplined label)
    (h : parser.Alike data c c') (hc : parser.Held label c)
    (hc' : parser.Held label c') {slot : SlotId} {callback : CodeId}
    (hkind : (parser.machine.state c.state).kind = .spanStart slot callback)
    {edge : Machine.Edge}
    (hedge : edge ∈ (parser.machine.state c.state).allEdges) :
    parser.Alike data
      ((c.openSlot slot callback (parser.isSharedSlot slot)).follow edge none)
      ((c'.openSlot slot callback (parser.isSharedSlot slot)).follow edge
          none) := by
  have hfollow : parser.Alike data (c.follow edge none)
      (c'.follow edge none) :=
    h.follow hd hc hc' hedge fun hdispatches => by
      rw [hkind] at hdispatches
      exact hdispatches.elim
  have hkind' : (parser.machine.state c'.state).kind
      = .spanStart slot callback := by
    rw [← h.state]
    exact hkind
  exact {
    state := rfl
    position := hfollow.position
    index := h.index
    matched := hfollow.matched
    fields := h.fields
    opened := fun s => by
      by_cases hs : s = slot
      · simp [Config.follow, Config.openSlot, hs]
      · simpa [Config.follow, Config.openSlot, hs] using h.opened s
    holders := by
      funext s
      simp [Config.follow, Config.openSlot, h.holders]
    calls := h.calls
    tally := fun s => by
      rw [tally_open hd hc hkind, tally_open hd hc' hkind', hfollow.tally s,
        hfollow.position,
        h.position] }

private theorem Alike.closeSlot (hd : parser.Disciplined label)
    (h : parser.Alike data c c') (hc : parser.Held label c)
    (hc' : parser.Held label c') {slot : SlotId} {callback : CodeId}
    (hkind : (parser.machine.state c.state).kind = .spanEnd slot callback)
    {edge : Machine.Edge}
    (hedge : edge ∈ (parser.machine.state c.state).allEdges) :
    parser.Alike data ((c.closeSlot data slot callback).follow edge none)
      ((c'.closeSlot data slot callback).follow edge none) := by
  have hfollow : parser.Alike data (c.follow edge none)
      (c'.follow edge none) :=
    h.follow hd hc hc' hedge fun hdispatches => by
      rw [hkind] at hdispatches
      exact hdispatches.elim
  have hkind' : (parser.machine.state c'.state).kind
      = .spanEnd slot callback := by
    rw [← h.state]
    exact hkind
  exact {
    state := rfl
    position := hfollow.position
    index := h.index
    matched := hfollow.matched
    fields := h.fields
    opened := fun s => by
      by_cases hs : s = slot
      · simp [Config.follow, Config.closeSlot, hs]
      · simpa [Config.follow, Config.closeSlot, hs] using h.opened s
    holders := h.holders
    calls := h.calls
    tally := fun s => by
      rw [tally_close hd hc hkind, tally_close hd hc' hkind', hfollow.tally s,
        h.tally s] }

-- ================================================================ steps

/-- Parsers that are alike take steps that are. -/
theorem Alike.step (h : parser.Alike data c c') (host : Host)
    (hd : parser.Disciplined label) (hc : parser.Held label c)
    (hc' : parser.Held label c') :
    StepAlike parser data (parser.step host data c)
        (parser.step host data c') := by
  cases hother : (parser.machine.state c.state).otherwise with
  | none =>
      rcases step_of_none host hother with hstuck | ⟨code, reason, hstop⟩
      · rw [hstuck data c rfl, hstuck data c' h.state.symm]
        exact .stuck
      · rw [hstop data c rfl, hstop data c' h.state.symm]
        exact .stop h
  | some otherwise =>
      have hmem := otherwise_mem hother
      have hother' : (parser.machine.state c'.state).otherwise
          = some otherwise := by
        rw [← h.state]
        exact hother
      rw [step_of_some hother, step_of_some hother', ← h.state]
      unfold body
      cases hkind : (parser.machine.state c.state).kind with
      | error code reason => exact .stop h
      | pause code reason => exact .stop h
      | consume field => exact skip_alike hd h hc hc' hmem hkind
      | empty => exact pass_alike h (h.follow hd hc hc' hmem fun _ => rfl)
      | invoke callee => exact invoke_alike hd h hc hc' hmem hkind
      | sequence => exact literal_alike hd h hc hc' hmem hkind
      | single => exact branch_alike hd h hc hc' hmem
      | table => exact branch_alike hd h hc hc' hmem
      | spanStart slot callback =>
          exact pass_alike h (h.openSlot hd hc hc' hkind hmem)
      | spanEnd slot callback =>
          exact pass_alike h (h.closeSlot hd hc hc' hkind hmem)

/-- Outcomes of runs that are alike. -/
inductive OutcomeAlike (parser : Parser) (data : List UInt8) :
    Outcome → Outcome → Prop where
  | suspended {c c' : Config} (h : parser.Alike data c c') :
      OutcomeAlike parser data (.suspended c) (.suspended c')
  | stopped {c c' : Config} {code : Int32} {reason : String}
      (h : parser.Alike data c c') :
      OutcomeAlike parser data (.stopped c code reason)
        (.stopped c' code reason)

/-- Parsers that are alike have runs that end alike. -/
theorem Runs.alike (hd : parser.Disciplined label) {o : Outcome}
    (hrun : parser.Runs host data c o) (h : parser.Alike data c c')
    (hc : parser.Held label c) (hc' : parser.Held label c')
    (hpos : c.position ≤ data.length) :
    ∃ o', parser.Runs host data c' o' ∧ OutcomeAlike parser data o o' := by
  induction hrun generalizing c' with
  | @next c d o hstep _ ih =>
      have halike := h.step host hd hc hc'
      rw [hstep] at halike
      generalize hstep' : parser.step host data c' = step' at halike
      cases halike with
      | @next _ d' hnext =>
          obtain ⟨hheld, hpos'⟩ := hc.next hd hpos hstep
          obtain ⟨hheld', _⟩ :=
            hc'.next hd (by rw [← h.position]; exact hpos) hstep'
          obtain ⟨o', hrun', hend⟩ := ih hnext hheld hheld' hpos'
          exact ⟨o', .next hstep' hrun', hend⟩
  | @suspend c d hstep =>
      have halike := h.step host hd hc hc'
      rw [hstep] at halike
      generalize hstep' : parser.step host data c' = step' at halike
      cases halike with
      | @suspend _ d' hsuspend =>
          exact ⟨_, .suspend hstep', .suspended hsuspend⟩
  | @stop c d code reason hstep =>
      have halike := h.step host hd hc hc'
      rw [hstep] at halike
      generalize hstep' : parser.step host data c' = step' at halike
      cases halike with
      | @stop _ d' _ _ hstop => exact ⟨_, .stop hstep', .stopped hstop⟩

end Bytewise.Parser

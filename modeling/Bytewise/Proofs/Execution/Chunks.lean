/-
Cutting a run where a chunk ends.

With more input behind the chunk the steps of a run are the same, up to the
one that runs out of input; that step, taken again where the chunk ends,
goes on as if the input had not ended (`step_append`). The end of a chunk
hands over what is pending and leaves the parser alike (`alike_restart`),
so the rest of the run does not show where the input was cut.
-/
import Bytewise.Proofs.Execution.Alike

namespace Bytewise.Parser

open Machine

variable {parser : Parser} {host : Host} {label : SlotLabel}
  {data more : List UInt8} {c c' : Config}

-- =========================================================== more input

/-- A literal that pauses at the end of some input goes on with what comes
after it. -/
theorem matchLiteral_append (t : Transform) (literal input more : List UInt8)
    (index : Nat) :
    matchLiteral t literal (input ++ more) index
      = match matchLiteral t literal input index with
        | (.pause, read, i) =>
          let (status, read', i') := matchLiteral t literal more i
          (status, read + read', i')
        | result => result := by
  induction input generalizing index with
  | nil =>
      show matchLiteral t literal more index = _
      unfold matchLiteral
      simp
  | cons b input ih =>
      rw [List.cons_append, matchLiteral, matchLiteral]
      by_cases hbyte : literal[index]? = some (t.apply b)
      · rw [if_pos hbyte, if_pos hbyte]
        by_cases hlast : index + 1 = literal.length
        · rw [if_pos hlast, if_pos hlast]
        · rw [if_neg hlast, if_neg hlast, ih]
          obtain ⟨status, read, i⟩ := matchLiteral t literal input (index + 1)
          cases status with
          | pause =>
              dsimp only
              rw [Nat.add_right_comm]
          | _ => rfl
      · rw [if_neg hbyte, if_neg hbyte]

/-- How a step on a chunk relates to the step with more input behind it. -/
inductive Extends (parser : Parser) (host : Host) (data more : List UInt8)
    (c : Config) :
    Step → Prop where
  | next {c' : Config} (h : parser.step host (data ++ more) c = .next c') :
      Extends parser host data more c (.next c')
  | stop {c' : Config} {code : Int32} {reason : String}
      (h : parser.step host (data ++ more) c = .stop c' code reason) :
      Extends parser host data more c (.stop c' code reason)
  | stuck (h : parser.step host (data ++ more) c = .stuck) :
      Extends parser host data more c .stuck
  /-- Taken again at the end of the chunk, the step comes to the same. -/
  | suspend {c' : Config}
      (h : parser.step host (data ++ more) c
        = parser.step host (data ++ more) { c' with position := data.length })
      (state : c'.state = c.state)
        (waits : ¬ parser.machine.TakesValue c.state)
      (position : c.position ≤ c'.position ∧ c'.position ≤ data.length)
      (starts : c'.starts = c.starts) (holders : c'.holders = c.holders)
      (deliveries : c'.deliveries = c.deliveries) :
      Extends parser host data more c (.suspend c')

/-- Where a chunk has not ended, more input behind it leaves what is next. -/
private theorem drop_append (h : c.position ≤ data.length) :
    (data ++ more).drop c.position = data.drop c.position ++ more :=
  List.drop_append_of_le_length h

/-- Where the input is long enough, all that is to skip is skipped. -/
private theorem skipBody_of_le {field : String} {otherwise : Machine.Edge}
    {n : Nat} (hn : (data.drop c.position).length = n)
    (h : c.fields field ≤ n) :
    skipBody data c field otherwise
      = .next (({ c with
          position := c.position + c.fields field
          fields := c.fields.set field 0 } : Config).follow otherwise
              otherwise.value) := by
  subst hn
  exact if_pos h

/-- Where it is not, the rest is left for the next chunk. -/
private theorem skipBody_of_lt {field : String} {otherwise : Machine.Edge}
    {n : Nat} (hn : (data.drop c.position).length = n)
    (h : n < c.fields field) :
    skipBody data c field otherwise
      = .suspend { c with
          position := c.position + n
          fields := c.fields.set field (c.fields field - n) } := by
  subst hn
  exact if_neg (Nat.not_le.mpr h)

/-- The last number put into a field is the one that stays. -/
theorem set_set (fields : Fields) (field : String) (m n : Nat) :
    (fields.set field m).set field n = fields.set field n := by
  funext f
  unfold Fields.set
  split <;> rfl

/-- More input lets a state go on skipping. -/
private theorem extends_skip {field : String} {otherwise : Machine.Edge}
    (hpos : c.position ≤ data.length)
    (hstep : ∀ data c', c'.state = c.state →
      parser.step host data c' = skipBody data c' field otherwise)
    (hwaits : ¬ parser.machine.TakesValue c.state) :
    Extends parser host data more c (skipBody data c field otherwise) := by
  have hlen : (data.drop c.position).length = data.length - c.position :=
    List.length_drop
  have hlen' : ((data ++ more).drop c.position).length
      = data.length - c.position + more.length := by
    rw [drop_append hpos, List.length_append, hlen]
  rcases Nat.lt_or_ge (data.length - c.position)
    (c.fields field) with hneed | hneed
  · -- all of the chunk is skipped; the rest of the need is less by as much
    rw [skipBody_of_lt hlen hneed]
    refine .suspend ?_ rfl hwaits ⟨Nat.le_add_right _ _, ?_⟩ rfl rfl rfl
    · generalize hc' : ({ c with
          position := data.length
          fields :=
            c.fields.set field
              (c.fields field - (data.length - c.position)) } : Config)
        = c'
      have hposition : c'.position = data.length := by rw [← hc']
      have hfields : c'.fields
          = c.fields.set field
              (c.fields field - (data.length - c.position)) := by
        rw [← hc']
      have hfield : c'.fields field = c.fields field
          - (data.length - c.position) := by
        rw [hfields]
        exact if_pos rfl
      have hmore : ((data ++ more).drop c'.position).length = more.length := by
        rw [hposition, List.drop_left]
      refine (hstep (data ++ more) c rfl).trans
        (Eq.trans ?_ (hstep (data ++ more) c'
        (by rw [← hc'])).symm)
      rcases Nat.lt_or_ge (data.length - c.position + more.length)
        (c.fields field) with hall | hall
      · rw [skipBody_of_lt hlen' hall, skipBody_of_lt hmore
          (by rw [hfield]; omega), hposition,
          hfield, hfields, set_set, ← hc']
        have hend : c.position + (data.length - c.position + more.length)
            = data.length + more.length := by omega
        rw [hend, Nat.sub_add_eq]
      · rw [skipBody_of_le hlen' hall, skipBody_of_le hmore
          (by rw [hfield]; omega), hposition,
          hfield, hfields, set_set, ← hc']
        have : c.position + c.fields field
            = data.length + (c.fields field - (data.length - c.position)) := by
              omega
        rw [this]
    · show c.position + (data.length - c.position) ≤ data.length
      omega
  · rw [skipBody_of_le hlen hneed]
    refine .next ?_
    rw [hstep _ c rfl]
    apply skipBody_of_le hlen'
    omega

/-- More input lets a state pass on that has waited for it. -/
private theorem extends_pass {consumes : Bool}
    (next : List UInt8 → Config → Config) (hpos : c.position ≤ data.length)
    (hstep : ∀ data, parser.step host data c = passBody data c consumes
      (next data c))
    (hnext : next (data ++ more) c = next data c)
    (hwaits : consumes = true → ¬ parser.machine.TakesValue c.state) :
    Extends parser host data more c
        (passBody data c consumes (next data c)) := by
  by_cases hempty : (consumes && (data.drop c.position).isEmpty) = true
  · have hbody : passBody data c consumes (next data c) = .suspend c :=
      if_pos hempty
    obtain ⟨hcons, hnil⟩ := Bool.and_eq_true_iff.mp hempty
    have hend : c.position = data.length := by
      have hge := List.drop_eq_nil_iff.mp (List.isEmpty_iff.mp hnil)
      omega
    rw [hbody]
    refine .suspend ?_ rfl (hwaits hcons) ⟨Nat.le_refl _, hpos⟩ rfl rfl rfl
    rw [← hend]
  · have hbody : passBody data c consumes (next data c)
      = .next (next data c) := if_neg hempty
    rw [hbody]
    refine .next ?_
    rw [hstep, hnext]
    refine if_neg fun h => hempty ?_
    obtain ⟨hcons, hnil⟩ := Bool.and_eq_true_iff.mp h
    rw [drop_append hpos] at hnil
    rw [hcons, List.isEmpty_iff.mpr
      (List.append_eq_nil_iff.mp (List.isEmpty_iff.mp hnil)).1]
    rfl

/-- More input lets a state look at a byte that it has waited for. -/
private theorem extends_branch {t : Transform} {edges : List Machine.Edge}
    {otherwise : Machine.Edge} (hpos : c.position ≤ data.length)
    (hstep : ∀ data, parser.step host data c = branchBody data c t edges
      otherwise)
    (hwaits : ¬ parser.machine.TakesValue c.state) :
    Extends parser host data more c (branchBody data c t edges otherwise) := by
  cases hinput : data.drop c.position with
  | nil =>
      have hbody : branchBody data c t edges otherwise = .suspend c := by
        unfold branchBody
        rw [hinput]
      have hend : c.position = data.length := by
        have hge := List.drop_eq_nil_iff.mp hinput
        omega
      rw [hbody]
      refine .suspend ?_ rfl hwaits ⟨Nat.le_refl _, hpos⟩ rfl rfl rfl
      rw [← hend]
  | cons b rest =>
      have hmore : (data ++ more).drop c.position = b :: (rest ++ more) := by
        rw [drop_append hpos, hinput, List.cons_append]
      have hstep' := hstep (data ++ more)
      unfold branchBody at hstep' ⊢
      rw [hmore] at hstep'
      rw [hinput]
      dsimp only at hstep' ⊢
      split
      · rename_i edge hfind
        rw [hfind] at hstep'
        exact .next hstep'
      · rename_i hfind
        rw [hfind] at hstep'
        exact .next hstep'

/-- More input lets a comparison go on where it stopped. -/
private theorem extends_literal {t : Transform} {edges : List Machine.Edge}
    {otherwise : Machine.Edge} (hpos : c.position ≤ data.length)
    (hstep : ∀ data c', c'.state = c.state →
      parser.step host data c' = literalBody data c' t edges otherwise)
    (hwaits : ¬ parser.machine.TakesValue c.state) :
    Extends parser host data more c
        (literalBody data c t edges otherwise) := by
  have hstuck : (∀ data c', literalBody data c' t edges otherwise = .stuck) →
      Extends parser host data more c
          (literalBody data c t edges otherwise) := by
    intro h
    rw [h]
    exact .stuck ((hstep _ c rfl).trans (h _ c))
  cases edges with
  | nil => exact hstuck fun _ _ => rfl
  | cons edge rest =>
      rcases hkey : edge.key with _ | (b | literal | code)
      · exact hstuck fun _ _ => by simp only [literalBody, hkey]
      · exact hstuck fun _ _ => by simp only [literalBody, hkey]
      · have hbody : ∀ data c',
            literalBody data c' t (edge :: rest) otherwise = _ :=
          literalBody_eq hkey
        have happend :=
          matchLiteral_append t literal (data.drop c.position) more c.index
        have hthere := hstep (data ++ more)
        rw [hbody]
        generalize hmatch : matchLiteral t literal (data.drop c.position)
          c.index = result
          at happend
        obtain ⟨status, read, index⟩ := result
        cases status with
        | complete =>
            refine .next ?_
            rw [hthere c rfl, hbody, drop_append hpos, happend]
        | mismatch =>
            refine .next ?_
            rw [hthere c rfl, hbody, drop_append hpos, happend]
        | pause =>
            have hread : c.position + read = data.length := by
              have := matchLiteral_pause hmatch
              rw [List.length_drop] at this
              omega
            refine .suspend ?_ rfl hwaits
              ⟨Nat.le_add_right _ _, Nat.le_of_eq hread⟩ rfl rfl rfl
            refine (hthere c rfl).trans (Eq.trans ?_
              (hthere { c with position := data.length, index } rfl).symm)
            rw [hbody, hbody, drop_append hpos, happend]
            dsimp only
            rw [List.drop_left]
            obtain ⟨status, read', index'⟩ := matchLiteral t literal more index
            have hsum : c.position + (read + read') = data.length + read' := by
              omega
            cases status <;> simp only [hsum]
      · exact hstuck fun _ _ => by simp only [literalBody, hkey]

/-- More input makes no difference to a call. -/
private theorem extends_invoke {callee : CodeId} {edges : List Machine.Edge}
    {otherwise : Machine.Edge}
    (hstep : ∀ data, parser.step host data c
      = invokeBody host c callee (parser.machine.code callee)
        edges otherwise) :
    Extends parser host data more c
      (invokeBody host c callee (parser.machine.code callee) edges
          otherwise) := by
  have hthere := hstep (data ++ more)
  unfold invokeBody at hthere ⊢
  dsimp only at hthere ⊢
  split
  · rename_i edge hfind
    rw [hfind] at hthere
    exact .next hthere
  · rename_i hfind
    rw [hfind] at hthere
    exact .next hthere

/-- More input makes no difference to what is pending. -/
theorem pending_append (hpos : c.position ≤ data.length) (slot : SlotId) :
    c.pending (data ++ more) slot c.position
        = c.pending data slot c.position := by
  unfold Config.pending
  rw [List.take_append_of_le_length hpos]

/-- Only states that call take values. -/
private theorem not_takesValue {kind : StateKind}
    (hkind : (parser.machine.state c.state).kind = kind)
    (h : ∀ callee, kind ≠ .invoke callee) :
    ¬ parser.machine.TakesValue c.state := by
  intro hcalled
  obtain ⟨callee, hcallee, _⟩ := hcalled
  exact h callee (hkind.symm.trans hcallee)

/-- With more input behind a chunk a step is the same, and one that runs out of
input is taken again where the chunk ends. -/
theorem step_append (hpos : c.position ≤ data.length) :
    Extends parser host data more c (parser.step host data c) := by
  cases hother : (parser.machine.state c.state).otherwise with
  | none =>
      rcases step_of_none host hother with hstuck | ⟨code, reason, hstop⟩
      · rw [hstuck data c rfl]
        exact .stuck (hstuck _ c rfl)
      · rw [hstop data c rfl]
        exact .stop (hstop _ c rfl)
  | some otherwise =>
      have hbody : ∀ data c', c'.state = c.state → parser.step host data c'
          = parser.body host data c' (parser.machine.state c.state)
              otherwise := by
        intro data c' hstate
        rw [step_of_some (by rw [hstate]; exact hother), hstate]
      rw [hbody data c rfl]
      unfold body at hbody ⊢
      cases hkind : (parser.machine.state c.state).kind with
      | error code reason =>
          rw [hkind] at hbody
          exact .stop (hbody _ c rfl)
      | pause code reason =>
          rw [hkind] at hbody
          exact .stop (hbody _ c rfl)
      | consume field =>
          rw [hkind] at hbody
          exact extends_skip hpos hbody
            (not_takesValue hkind fun _ h => nomatch h)
      | empty =>
          rw [hkind] at hbody
          exact extends_pass (fun _ c => c.follow otherwise otherwise.value)
            hpos
            (fun data => hbody data c rfl) rfl fun _ => not_takesValue hkind
              fun _ h => nomatch h
      | invoke callee =>
          rw [hkind] at hbody
          exact extends_invoke fun data => hbody data c rfl
      | sequence =>
          rw [hkind] at hbody
          exact extends_literal hpos hbody
            (not_takesValue hkind fun _ h => nomatch h)
      | single =>
          rw [hkind] at hbody
          exact extends_branch hpos (fun data => hbody data c rfl)
            (not_takesValue hkind fun _ h => nomatch h)
      | table =>
          rw [hkind] at hbody
          exact extends_branch hpos (fun data => hbody data c rfl)
            (not_takesValue hkind fun _ h => nomatch h)
      | spanStart slot callback =>
          rw [hkind] at hbody
          exact extends_pass (fun _ c =>
              (c.openSlot slot callback (parser.isSharedSlot slot)).follow
                otherwise none) hpos
            (fun data => hbody data c rfl) rfl fun _ => not_takesValue hkind
              fun _ h => nomatch h
      | spanEnd slot callback =>
          rw [hkind] at hbody
          refine extends_pass (fun data c =>
              (c.closeSlot data slot callback).follow otherwise none) hpos
            (fun data => hbody data c rfl) ?_ fun _ => not_takesValue hkind
              fun _ h => nomatch h
          unfold Config.closeSlot
          rw [pending_append hpos]

-- ============================================================ chunk ends

/-- What one slot hands over, among what all of them do. -/
private theorem filter_range {f : SlotId → Option Delivery}
    (hf : ∀ slot d, f slot = some d → d.slot = slot) (n : Nat)
    (slot : SlotId) :
    ((List.range n).filterMap f).filter (·.slot == slot)
      = if slot < n then (f slot).toList else [] := by
  induction n with
  | zero => rfl
  | succ n ih =>
      rw [List.range_succ, List.filterMap_append, List.filter_append, ih]
      rcases Nat.lt_trichotomy slot n with hlt | rfl | hgt
      · have hnone : ([n].filterMap f).filter (·.slot == slot) = [] := by
          cases hn : f n with
          | none => simp [hn]
          | some d =>
              have hne : d.slot ≠ slot := by
                rw [hf n d hn]
                exact Nat.ne_of_gt hlt
              simp [hn, hne]
        rw [if_pos hlt, if_pos (Nat.lt_succ_of_lt hlt), hnone, List.append_nil]
      · rw [if_neg (Nat.lt_irrefl _), if_pos (Nat.lt_succ_self _),
          List.nil_append]
        cases hn : f slot with
        | none => simp [hn]
        | some d => simp [hn, hf slot d hn]
      · have hnone : ([n].filterMap f).filter (·.slot == slot) = [] := by
          cases hn : f n with
          | none => simp [hn]
          | some d =>
              have hne : d.slot ≠ slot := by
                rw [hf n d hn]
                exact Nat.ne_of_lt hgt
              simp [hn, hne]
        rw [if_neg (Nat.not_lt.mpr (Nat.le_of_lt hgt)),
          if_neg (Nat.not_lt.mpr hgt), hnone,
          List.append_nil]

/-- The end of a chunk hands over what is pending. -/
theorem delivered_finish (hc : parser.Held label c) (slot : SlotId) :
    (parser.finish data c).delivered slot
      = parser.tally data { c with position := data.length } slot := by
  have hflushed : ((parser.flushed data c).filter (·.slot == slot)).flatMap
      (fun d => d.bytes.map (·, d.callback))
        = parser.unflushed data { c with position := data.length } slot := by
    unfold flushed
    rw [filter_range]
    · unfold unflushed Config.pending
      dsimp only
      rw [List.take_length]
      have hholder : parser.holder? { c with position := data.length } slot
          = parser.holder? c slot := rfl
      rw [hholder]
      cases hstart : c.starts slot with
      | none =>
          cases parser.holder? c slot <;> simp
      | some start =>
          obtain ⟨_, hlt, callback, hcallback, _⟩ := hc slot start hstart
          rw [if_pos hlt, hcallback]
          simp
    · intro k d hd
      cases hstart : c.starts k with
      | none => simp [hstart] at hd
      | some start =>
          cases hholder : parser.holder? c k with
          | none => simp [hstart, hholder] at hd
          | some callback =>
              simp only [hstart, hholder, Option.pure_def, Option.bind_eq_bind,
                Option.bind_some,
                Option.some.injEq] at hd
              rw [← hd]
  unfold tally
  rw [← hflushed]
  exact delivered_append { c with position := data.length }
    (parser.flushed data c) slot

/-- The end of a chunk leaves slots held in the next call. -/
theorem held_restart (hc : parser.Held label c) :
    parser.Held label (restart (parser.finish data c)) :=
  hc.restart rfl rfl fun _ _ hlabel => hlabel

/-- A parser that starts on the next chunk is like one that has stayed in its
run. -/
theorem alike_restart (hc : parser.Held label c)
    (hwaits : ¬ parser.machine.TakesValue c.state) :
    parser.Alike (data ++ more) { c with position := data.length }
      (restart (parser.finish data c)) where
  state := rfl
  position := rfl
  index := rfl
  matched htakes := absurd htakes hwaits
  fields := rfl
  opened slot := by
    show (c.starts slot).isSome
      = ((c.starts slot).map fun _ => data.length).isSome
    rw [Option.isSome_map]
  holders := rfl
  calls := rfl
  tally slot := by
    have hpending : ∀ d : Config, d.position = data.length →
        parser.unflushed (data ++ more) d slot = parser.unflushed data d
            slot := by
      intro d hd
      unfold unflushed
      rw [pending_append (Nat.le_of_eq hd)]
    have hnone : parser.unflushed data (restart (parser.finish data c)) slot
        = [] := by
      have hstarts : (restart (parser.finish data c)).starts slot
          = (c.starts slot).map fun _ => data.length := rfl
      have hnil : (restart (parser.finish data c)).pending data slot
          data.length = [] := by
        unfold Config.pending
        rw [hstarts]
        cases c.starts slot with
        | none => rfl
        | some start => simp
      unfold unflushed
      rw [show (restart (parser.finish data c)).position
        = data.length from rfl, hnil]
      cases parser.holder? (restart (parser.finish data c)) slot <;> rfl
    unfold tally
    rw [hpending _ rfl, hpending (restart (parser.finish data c)) rfl, hnone,
      List.append_nil]
    exact (delivered_finish hc slot).symm

/-- A run on a chunk with more input behind it stops in the chunk, or is
suspended where the chunk ends and goes on from there. -/
theorem Runs.cut (hd : parser.Disciplined label) {o : Outcome}
    (hrun : parser.Runs host (data ++ more) c o) (hc : parser.Held label c)
    (hpos : c.position ≤ data.length) :
    (∃ c' code reason, o = .stopped c' code reason ∧ parser.Runs host data c o)
      ∨ ∃ c', parser.Runs host data c (.suspended c')
          ∧ parser.Runs host (data ++ more)
            { c' with position := data.length } o
          ∧ parser.Held label c' ∧ c'.position ≤ data.length
          ∧ ¬ parser.machine.TakesValue c'.state := by
  induction hrun with
  | @next c d o hstep hrest ih =>
      have hext := @step_append parser host data more c hpos
      generalize hshort : parser.step host data c = short at hext
      cases hext with
      | next h =>
          obtain rfl := Step.next.inj (hstep.symm.trans h)
          obtain ⟨hheld, hpos'⟩ := hc.next hd hpos hshort
          rcases ih hheld hpos' with ⟨c', code, reason, ho, hrun⟩
            | ⟨c', hrun, hrest'⟩
          · exact Or.inl ⟨c', code, reason, ho, .next hshort hrun⟩
          · exact Or.inr ⟨c', .next hshort hrun, hrest'⟩
      | stop h => cases hstep.symm.trans h
      | stuck h => cases hstep.symm.trans h
      | @suspend c' h state waits position starts holders _ =>
          refine Or.inr
            ⟨c', .suspend hshort, .next (h.symm.trans hstep) hrest, ?_⟩
          rw [state]
          exact ⟨hc.move starts holders position.1 fun _ _ hl => by
            rw [state]; exact hl, position.2,
            waits⟩
  | @suspend c d hstep =>
      have hext := @step_append parser host data more c hpos
      generalize hshort : parser.step host data c = short at hext
      cases hext with
      | next h => cases hstep.symm.trans h
      | stop h => cases hstep.symm.trans h
      | stuck h => cases hstep.symm.trans h
      | @suspend c' h state waits position starts holders _ =>
          refine Or.inr
            ⟨c', .suspend hshort, .suspend (h.symm.trans hstep), ?_⟩
          rw [state]
          exact ⟨hc.move starts holders position.1 fun _ _ hl => by
            rw [state]; exact hl, position.2,
            waits⟩
  | @stop c d code reason hstep =>
      have hext := @step_append parser host data more c hpos
      generalize hshort : parser.step host data c = short at hext
      cases hext with
      | next h => cases hstep.symm.trans h
      | stop h =>
          cases hstep.symm.trans h
          exact Or.inl ⟨_, _, _, rfl, .stop hshort⟩
      | stuck h => cases hstep.symm.trans h
      | @suspend c' h state waits position starts holders _ =>
          refine Or.inr ⟨c', .suspend hshort, .stop (h.symm.trans hstep), ?_⟩
          rw [state]
          exact ⟨hc.move starts holders position.1 fun _ _ hl => by
            rw [state]; exact hl, position.2,
            waits⟩

-- ============================================================== feeding

/-- What a host can tell of how two parsers have ended: where, after which
calls and with which fields, and, of parsers that wait for more input, which
bytes of each slot went to which callback. -/
def Agree : Outcome → Outcome → Prop
  | .suspended c, .suspended c' =>
      c.state = c'.state ∧ c.position = c'.position ∧ c.calls = c'.calls
        ∧ c.fields = c'.fields
        ∧ ∀ slot, c.delivered slot = c'.delivered slot
  | .stopped c code reason, .stopped c' code' reason' =>
      c.state = c'.state ∧ c.position = c'.position ∧ c.calls = c'.calls
        ∧ c.fields = c'.fields
        ∧ code = code' ∧ reason = reason'
  | _, _ => False

theorem Agree.refl (o : Outcome) : Agree o o := by
  cases o with
  | suspended c => exact ⟨rfl, rfl, rfl, rfl, fun _ => rfl⟩
  | stopped c code reason => exact ⟨rfl, rfl, rfl, rfl, rfl, rfl⟩

theorem Agree.trans {a b c : Outcome} (hab : Agree a b) (hbc : Agree b c) :
    Agree a c := by
  cases a with
  | suspended x =>
      cases b with
      | stopped => exact hab.elim
      | suspended y =>
          cases c with
          | stopped => exact hbc.elim
          | suspended z =>
              obtain ⟨h1, h2, h3, h4, h5⟩ := hab
              obtain ⟨k1, k2, k3, k4, k5⟩ := hbc
              exact ⟨h1.trans k1, h2.trans k2, h3.trans k3, h4.trans k4,
                fun slot => (h5 slot).trans (k5 slot)⟩
  | stopped x =>
      cases b with
      | suspended => exact hab.elim
      | stopped y =>
          cases c with
          | suspended => exact hbc.elim
          | stopped z =>
              obtain ⟨h1, h2, h3, h4, h5, h6⟩ := hab
              obtain ⟨k1, k2, k3, k4, k5, k6⟩ := hbc
              exact ⟨h1.trans k1, h2.trans k2, h3.trans k3, h4.trans k4,
                h5.trans k5, h6.trans k6⟩

/-- An outcome once the chunk it belongs to has ended. -/
def Outcome.ended (parser : Parser) (data : List UInt8) : Outcome → Outcome
  | .suspended c => .suspended (parser.finish data c)
  | .stopped c code reason => .stopped c code reason

/-- A parser that is suspended is held as it was, within the input. -/
theorem Runs.held (hd : parser.Disciplined label)
    (hrun : parser.Runs host data c (.suspended c')) (hc : parser.Held label c)
    (hpos : c.position ≤ data.length) :
    parser.Held label c' ∧ c'.position ≤ data.length := by
  have hrun' : parser.Runs host (data ++ []) c (.suspended c') := by
    rw [List.append_nil]
    exact hrun
  rcases hrun'.cut hd hc hpos with ⟨_, _, _, h, _⟩
    | ⟨d, hshort, _, hheld, hle, _⟩
  · cases h
  · cases hrun.unique hshort
    exact ⟨hheld, hle⟩

/-- Parsers that have ended alike agree once the chunk has ended. -/
theorem OutcomeAlike.agree {o o' : Outcome} (h : OutcomeAlike parser data o o')
    (held : ∀ c, o = .suspended c → parser.Held label c
      ∧ c.position ≤ data.length)
    (held' : ∀ c, o' = .suspended c → parser.Held label c
      ∧ c.position ≤ data.length) :
    Agree (o.ended parser data) (o'.ended parser data) := by
  cases h with
  | @suspended c c' h =>
      obtain ⟨hc, hle⟩ := held c rfl
      obtain ⟨hc', _⟩ := held' c' rfl
      refine ⟨h.state, rfl, h.calls, h.fields, fun slot => ?_⟩
      have hmoved : parser.Alike data { c with position := data.length }
          { c' with position := data.length } :=
        h.advance hc hc' hle ⟨rfl, rfl, rfl⟩ ⟨rfl, rfl, rfl⟩ rfl rfl h.state
          h.index h.fields h.calls
          h.matched
      rw [delivered_finish hc, delivered_finish hc']
      exact hmoved.tally slot
  | stopped h => exact ⟨h.state, h.position, h.calls, h.fields, rfl, rfl⟩

/-- A run over some input can be cut into chunks anywhere: fed these, the
parser ends, and it ends as after the run. -/
theorem Runs.feeds (hd : parser.Disciplined label) {first : List UInt8}
    {chunks : List (List UInt8)} {o : Outcome}
    (hrun : parser.Runs host (data ++ first ++ chunks.flatten) (restart c) o)
    (hc : parser.Held label (restart c)) (hpos : c.position ≤ data.length) :
    ∃ o', parser.Feeds host data c (first :: chunks) o'
      ∧ Agree (o.ended parser (data ++ first ++ chunks.flatten)) o' := by
  induction chunks generalizing data first c o with
  | nil =>
      rw [List.flatten_nil, List.append_nil] at hrun ⊢
      cases o with
      | suspended c' => exact ⟨_, .chunk hrun .done, Agree.refl _⟩
      | stopped c' code reason => exact ⟨_, .stop hrun, Agree.refl _⟩
  | cons second chunks ih =>
      have hpos' : (restart c).position ≤ (data ++ first).length := by
        rw [List.length_append]
        show c.position ≤ data.length + first.length
        omega
      rcases hrun.cut hd hc hpos' with
        ⟨c', code, reason, rfl, hshort⟩ | ⟨s, hshort, hrest, hs, hle, hw⟩
      · exact ⟨_, .stop hshort, Agree.refl _⟩
      · -- the parser that starts on the second chunk is like the one that has
        -- not been suspended
        have halike := @alike_restart parser label (data ++ first)
          (second :: chunks).flatten s hs hw
        have hstay : parser.Held label
            { s with position := (data ++ first).length } :=
          hs.move rfl rfl hle fun _ _ h => h
        have hstart : parser.Held label
            (restart (parser.finish (data ++ first) s)) :=
          held_restart hs
        have hwithin : (data ++ first).length
            ≤ (data ++ first ++ (second :: chunks).flatten).length := by
          calc (data ++ first).length
              ≤ (data ++ first).length + (second :: chunks).flatten.length :=
                Nat.le_add_right _ _
            _ = _ := List.length_append.symm
        obtain ⟨o2, hrun2, hend⟩ := hrest.alike hd halike hstay hstart hwithin
        have hagree : Agree
            (o.ended parser (data ++ first ++ (second :: chunks).flatten))
            (o2.ended parser
                (data ++ first ++ (second :: chunks).flatten)) := by
          refine @OutcomeAlike.agree parser label _ o o2 hend ?_ ?_
          · intro d heq
            obtain rfl := heq
            exact hrest.held hd hstay hwithin
          · intro d heq
            obtain rfl := heq
            exact hrun2.held hd hstart hwithin
        rw [List.flatten_cons, ← List.append_assoc] at hrun2 hagree ⊢
        obtain ⟨o', hfeeds, hagree'⟩ := ih hrun2 hstart (Nat.le_refl _)
        exact ⟨o', .chunk hshort hfeeds, hagree.trans hagree'⟩

/-- Whatever a run on one chunk comes to, the same input in any chunks comes to
the same. -/
theorem Disciplined.chunking (hd : parser.Disciplined label)
    {first : List UInt8} {chunks : List (List UInt8)} {o : Outcome}
    (h : parser.Feeds host [] parser.init [first ++ chunks.flatten] o) :
    ∃ o', parser.Feeds host [] parser.init (first :: chunks) o'
        ∧ Agree o o' := by
  -- nothing is open at first
  have hheld : parser.Held label (restart parser.init) :=
    fun _ _ h => nomatch h
  cases h with
  | stop hrun =>
      rw [← List.append_assoc] at hrun
      exact hrun.feeds hd hheld (Nat.le_refl _)
  | chunk hrun hrest =>
      cases hrest
      rw [← List.append_assoc] at hrun ⊢
      exact hrun.feeds hd hheld (Nat.le_refl _)

end Bytewise.Parser

/-
Reading keys across chunks.

While it reads the keys of a match node, a parser looks at nothing but
where it is: the state, the position, and how much of a literal it has
compared. The end of a chunk changes none of them. So reading goes on
behind it as if the input had gone on there (`ReadsOver.of_steps`), up to
the value last passed, which is right wherever one is used.
-/
import Bytewise.Proofs.Execution.Chunks
import Bytewise.Proofs.Parser.Dispatch

namespace Bytewise.Parser

open Machine

variable {parser : Parser} {own : StateId → Prop} {host : Host}
  {label : SlotLabel} {data more : List UInt8} {c c' d : Config}

-- ============================================================== places

/-- The parser stands at the same place. -/
def At (c d : Config) : Prop :=
  d.state = c.state ∧ d.position = c.position ∧ d.index = c.index

/-- What comes next where keys are read; it is the same for all parsers that
stand there. -/
inductive Looks (parser : Parser) (host : Host) (data : List UInt8)
    (c : Config) : Prop where
  /-- There is a byte, and an edge is taken. -/
  | goes (edge : Machine.Edge) (p i : Nat)
      (mem : edge ∈ (parser.machine.state c.state).allEdges)
      (inside : p < data.length)
      (step : ∀ d, At c d → parser.step host data d
        = .next (({ d with position := p, index := i } : Config).follow
          edge edge.value))
  /-- There is none. -/
  | waits (p i : Nat)
      (step : ∀ d, At c d → parser.step host data d
        = .suspend { d with position := p, index := i })
  | stuck (step : ∀ d, At c d → parser.step host data d = .stuck)

private theorem looks_branch {t : Transform} {edges : List Machine.Edge}
    {otherwise : Machine.Edge} (hedges : ∀ edge ∈ edges,
      edge ∈ (parser.machine.state c.state).allEdges)
    (hother : otherwise ∈ (parser.machine.state c.state).allEdges)
    (hstep : ∀ d, d.state = c.state →
      parser.step host data d = branchBody data d t edges otherwise) :
    parser.Looks host data c := by
  have hsame : ∀ d, At c d →
      d = { d with position := c.position, index := c.index } := by
    rintro d ⟨-, hposition, hindex⟩
    rw [← hposition, ← hindex]
  cases hinput : data.drop c.position with
  | nil =>
      refine .waits c.position c.index fun d hd => ?_
      rw [hstep d hd.1, branchBody, hd.2.1, hinput, ← hsame d hd]
  | cons b rest =>
      have hinside : c.position < data.length := by
        by_contra hge
        rw [List.drop_eq_nil_of_le (Nat.not_lt.mp hge)] at hinput
        cases hinput
      cases hfind : edges.find? (·.takes (t.apply b)) with
      | some edge =>
          refine .goes edge c.position c.index
            (hedges edge (List.mem_of_find?_eq_some hfind))
            hinside fun d hd => ?_
          rw [hstep d hd.1, branchBody, hd.2.1, hinput]
          dsimp only
          rw [hfind, ← hsame d hd]
      | none =>
          refine .goes otherwise c.position c.index hother hinside
            fun d hd => ?_
          rw [hstep d hd.1, branchBody, hd.2.1, hinput]
          dsimp only
          rw [hfind, ← hsame d hd]

private theorem looks_literal {t : Transform} {edges : List Machine.Edge}
    {otherwise : Machine.Edge} (hedges : ∀ edge ∈ edges,
      edge ∈ (parser.machine.state c.state).allEdges)
    (hother : otherwise ∈ (parser.machine.state c.state).allEdges)
    (hstep : ∀ d, d.state = c.state →
      parser.step host data d = literalBody data d t edges otherwise) :
    parser.Looks host data c := by
  have hstuck : (∀ d, literalBody data d t edges otherwise = .stuck) →
      parser.Looks host data c := by
    intro h
    exact .stuck fun d hd => (hstep d hd.1).trans (h d)
  cases edges with
  | nil => exact hstuck fun _ => rfl
  | cons edge rest =>
      rcases hkey : edge.key with _ | (b | literal | code)
      · exact hstuck fun _ => by simp only [literalBody, hkey]
      · exact hstuck fun _ => by simp only [literalBody, hkey]
      · have hbody : ∀ d, At c d → parser.step host data d = _ := fun d hd =>
          (hstep d hd.1).trans (literalBody_eq hkey data d)
        obtain ⟨hread, hread'⟩ :=
          matchLiteral_read_le t literal (data.drop c.position) c.index
        rw [List.length_drop] at hread hread'
        generalize hresult : matchLiteral t literal (data.drop c.position)
          c.index = result
          at hread hread'
        obtain ⟨status, read, index⟩ := result
        cases status with
        | complete =>
            refine .goes edge (c.position + read) index
              (hedges edge List.mem_cons_self) ?_
              fun d hd => ?_
            · have hlt := hread' fun h => LiteralStatus.noConfusion h
              dsimp only at hlt
              omega
            · rw [hbody d hd, hd.2.1, hd.2.2, hresult]
        | mismatch =>
            refine .goes otherwise (c.position + read) index hother ?_
              fun d hd => ?_
            · have hlt := hread' fun h => LiteralStatus.noConfusion h
              dsimp only at hlt
              omega
            · rw [hbody d hd, hd.2.1, hd.2.2, hresult]
        | pause =>
            refine .waits (c.position + read) index fun d hd => ?_
            rw [hbody d hd, hd.2.1, hd.2.2, hresult]
      · exact hstuck fun _ => by simp only [literalBody, hkey]

/-- Where keys are read only the place matters. -/
theorem looks_of_dispatches (host : Host) (data : List UInt8)
    (h : (parser.machine.state c.state).kind.Dispatches) :
    parser.Looks host data c := by
  cases hother : (parser.machine.state c.state).otherwise with
  | none =>
      refine .stuck fun d hd => ?_
      unfold step
      rw [hd.1]
      cases hkind : (parser.machine.state c.state).kind with
      | error code reason =>
          rw [hkind] at h
          exact h.elim
      | _ => simp only [hother, hkind]
  | some otherwise =>
      have hmem := otherwise_mem hother
      have hbody : ∀ d, d.state = c.state → parser.step host data d
          = parser.body host data d (parser.machine.state c.state)
              otherwise := by
        intro d hd
        rw [step_of_some (by rw [hd]; exact hother), hd]
      unfold body at hbody
      cases hkind : (parser.machine.state c.state).kind with
      | sequence =>
          rw [hkind] at hbody
          exact looks_literal (fun _ => edges_mem) hmem hbody
      | single =>
          rw [hkind] at hbody
          exact looks_branch (fun _ => edges_mem) hmem hbody
      | table =>
          rw [hkind] at hbody
          exact looks_branch (fun _ => edges_mem) hmem hbody
      | _ =>
          rw [hkind] at h
          exact h.elim

-- ============================================================== levels

/-- Parsers at one place that have done the same. A value is the same where one
is used. -/
structure Level (parser : Parser) (c d : Config) : Prop where
  place : At c d
  fields : d.fields = c.fields
  calls : d.calls = c.calls
  matched : parser.machine.TakesValue c.state → d.matched = c.matched

theorem Level.refl (c : Config) : parser.Level c c :=
  ⟨⟨rfl, rfl, rfl⟩, rfl, rfl, fun _ => rfl⟩

/-- A state that reads keys takes no value. -/
theorem not_takesValue_of_dispatches {s : StateId}
    (h : (parser.machine.state s).kind.Dispatches) :
    ¬ parser.machine.TakesValue s := by
  rintro ⟨callee, hkind, -⟩
  rw [hkind] at h
  exact h

/-- Along one edge parsers stay level: a value that is used has just been
passed. -/
theorem Level.follow (hd : parser.Disciplined label) (h : parser.Level c d)
    {edge : Machine.Edge}
    (hedge : edge ∈ (parser.machine.state c.state).allEdges) (p i : Nat) :
    parser.Level
      (({ c with position := p, index := i } : Config).follow edge edge.value)
      (({ d with position := p, index := i } : Config).follow edge
          edge.value) where
  place := ⟨rfl, rfl, rfl⟩
  fields := h.fields
  calls := h.calls
  matched htakes := by
    obtain ⟨hsome, -⟩ := hd.value c.state edge hedge htakes
    obtain ⟨v, hv⟩ := Option.isSome_iff_exists.mp hsome
    unfold Config.follow
    dsimp only
    rw [hv]
    rfl

/-- Parsers that are level read on together. -/
theorem Level.readStep (hd : parser.Disciplined label) (h : parser.Level c d)
    (hstep : parser.ReadStep own host data c c') :
    ∃ d', parser.ReadStep own host data d d' ∧ parser.Level c' d' := by
  obtain ⟨⟨hown, hdispatches⟩, hstep⟩ := hstep
  have hreads : parser.Reads own d := by
    unfold Reads
    rw [h.place.1]
    exact ⟨hown, hdispatches⟩
  cases looks_of_dispatches host data hdispatches with
  | goes edge p i hmem _ hgoes =>
      obtain rfl := Step.next.inj (hstep.symm.trans (hgoes c ⟨rfl, rfl, rfl⟩))
      exact ⟨_, ⟨hreads, hgoes d h.place⟩, h.follow hd hmem p i⟩
  | waits p i hwaits => cases hstep.symm.trans (hwaits c ⟨rfl, rfl, rfl⟩)
  | stuck hstuck => cases hstep.symm.trans (hstuck c ⟨rfl, rfl, rfl⟩)

/-- Parsers that are level run out of input together. -/
theorem Level.suspend (h : parser.Level c d)
    (hdispatches : (parser.machine.state c.state).kind.Dispatches)
    (hstep : parser.step host data c = .suspend c') :
    ∃ d', parser.step host data d = .suspend d' ∧ parser.Level c' d' := by
  cases looks_of_dispatches host data hdispatches with
  | goes edge p i _ _ hgoes => cases hstep.symm.trans (hgoes c ⟨rfl, rfl, rfl⟩)
  | waits p i hwaits =>
      obtain rfl :=
        Step.suspend.inj (hstep.symm.trans (hwaits c ⟨rfl, rfl, rfl⟩))
      exact ⟨_, hwaits d h.place, ⟨h.place.1, rfl, rfl⟩, h.fields,
        h.calls, h.matched⟩
  | stuck hstuck => cases hstep.symm.trans (hstuck c ⟨rfl, rfl, rfl⟩)

/-- A parser that reads does not leave the input. -/
theorem ReadStep.position_le (hstep : parser.ReadStep own host data c c') :
    c'.position ≤ data.length := by
  obtain ⟨⟨-, hdispatches⟩, hstep⟩ := hstep
  cases looks_of_dispatches host data hdispatches with
  | goes edge p i _ hinside hgoes =>
      obtain rfl := Step.next.inj (hstep.symm.trans (hgoes c ⟨rfl, rfl, rfl⟩))
      show (if edge.noAdvance then p else p + 1) ≤ data.length
      split <;> omega
  | waits p i hwaits => cases hstep.symm.trans (hwaits c ⟨rfl, rfl, rfl⟩)
  | stuck hstuck => cases hstep.symm.trans (hstuck c ⟨rfl, rfl, rfl⟩)

-- ============================================================== chunks

/-- With `data` behind it or before it and `chunks` to come, the parser comes
from `c` to `d`, and only reads keys on the way. -/
inductive ReadsOver (parser : Parser) (own : StateId → Prop) (host : Host) :
    (data : List UInt8) → Config → (chunks : List (List UInt8)) →
        Config → Prop where
  | here {data : List UInt8} {c : Config} {chunks : List (List UInt8)} :
      ReadsOver parser own host data c chunks c
  | step {data : List UInt8} {c c' d : Config} {chunks : List (List UInt8)}
      (step : parser.ReadStep own host data c c')
      (rest : ReadsOver parser own host data c' chunks d) :
      ReadsOver parser own host data c chunks d
  | chunk {data chunk : List UInt8} {c c' d : Config}
      {chunks : List (List UInt8)}
      (reads : parser.Reads own c)
        (waits : parser.step host data c = .suspend c')
      (rest : ReadsOver parser own host (data ++ chunk)
        (restart (parser.finish data c')) chunks
        d) :
      ReadsOver parser own host data c (chunk :: chunks) d

/-- A parser that is level reads the same within one chunk. -/
theorem Level.reads (hd : parser.Disciplined label) {c₁ c₂ : Config}
    (hsteps : Relation.ReflTransGen (parser.ReadStep own host data) c₁ c₂)
    (h : parser.Level c₁ d) :
    ∃ d', parser.Level c₂ d' ∧ ∀ chunks last,
      parser.ReadsOver own host data d' chunks last →
      parser.ReadsOver own host data d chunks last := by
  induction hsteps using Relation.ReflTransGen.head_induction_on
      generalizing d with
  | refl => exact ⟨d, h, fun _ _ hover => hover⟩
  | head hstep _ ih =>
      obtain ⟨d', hstep', h'⟩ := h.readStep hd hstep
      obtain ⟨d'', h'', hback⟩ := ih h'
      exact ⟨d'', h'', fun chunks last hover => .step hstep'
        (hback chunks last hover)⟩

/-- Reading that goes on behind the end of a chunk stays within it, or runs out
of input there and goes on from its end. -/
theorem readSteps_cut {c₁ c₂ : Config}
    (hsteps : Relation.ReflTransGen (parser.ReadStep own host (data ++ more))
      c₁ c₂)
    (hpos : c₁.position ≤ data.length) :
    Relation.ReflTransGen (parser.ReadStep own host data) c₁ c₂
      ∨ ∃ x c', Relation.ReflTransGen (parser.ReadStep own host data) c₁ x
          ∧ parser.Reads own x
          ∧ parser.step host data x = .suspend c' ∧ parser.Reads own c'
          ∧ Relation.ReflTransGen (parser.ReadStep own host (data ++ more))
              { c' with position := data.length } c₂ := by
  induction hsteps using Relation.ReflTransGen.head_induction_on with
  | refl => exact Or.inl .refl
  | @head c₁ c₃ hstep hrest ih =>
      obtain ⟨hreads, hlong⟩ := hstep
      have hext := @step_append parser host data more c₁ hpos
      generalize hshort : parser.step host data c₁ = short at hext
      cases hext with
      | next h =>
          obtain rfl := Step.next.inj (hlong.symm.trans h)
          have hstep : parser.ReadStep own host data c₁ c₃ := ⟨hreads, hshort⟩
          rcases ih hstep.position_le with hin
            | ⟨x, c', hto, hx, hwaits, hc', hon⟩
          · exact Or.inl (hin.head hstep)
          · exact Or.inr ⟨x, c', hto.head hstep, hx, hwaits, hc', hon⟩
      | stop h => cases hlong.symm.trans h
      | stuck h => cases hlong.symm.trans h
      | @suspend c' h state waits position starts holders _ =>
          have hc' : parser.Reads own c' := by
            unfold Reads
            rw [state]
            exact hreads
          exact Or.inr ⟨c₁, c', .refl, hreads, hshort, hc',
            hrest.head ⟨hc', h.symm.trans hlong⟩⟩

/-- What is read from one piece of input is read from any chunks of it. -/
theorem ReadsOver.of_steps (hd : parser.Disciplined label) {c₁ c₂ : Config}
    {chunks : List (List UInt8)}
    (hsteps : Relation.ReflTransGen
      (parser.ReadStep own host (data ++ chunks.flatten)) c₁ c₂)
    (hpos : c₁.position ≤ data.length) (h : parser.Level c₁ d) :
    ∃ d', parser.ReadsOver own host data d chunks d' ∧ parser.Level c₂ d' := by
  induction chunks generalizing data c₁ d with
  | nil =>
      rw [List.flatten_nil, List.append_nil] at hsteps
      obtain ⟨d', h', hback⟩ := h.reads hd hsteps
      exact ⟨d', hback [] d' .here, h'⟩
  | cons chunk chunks ih =>
      rcases readSteps_cut hsteps hpos with hin
        | ⟨x, c', hto, hx, hwaits, hc', hon⟩
      · obtain ⟨d', h', hback⟩ := h.reads hd hin
        exact ⟨d', hback _ d' .here, h'⟩
      · obtain ⟨y, hy, hback⟩ := h.reads hd hto
        obtain ⟨d', hwaits', h'⟩ := hy.suspend hx.2 hwaits
        rw [List.flatten_cons, ← List.append_assoc] at hon
        have hlevel : parser.Level { c' with position := data.length }
            (restart (parser.finish data d')) :=
          ⟨⟨h'.place.1, rfl, h'.place.2.2⟩, h'.fields, h'.calls, fun htakes =>
            absurd htakes (not_takesValue_of_dispatches hc'.2)⟩
        have hreads : parser.Reads own y := by
          unfold Reads
          rw [hy.place.1]
          exact hx
        have hle : data.length ≤ (data ++ chunk).length := by
          rw [List.length_append]
          exact Nat.le_add_right _ _
        obtain ⟨last, hover, hlast⟩ := ih hon hle hlevel
        exact ⟨last, hback _ last (.chunk hreads hwaits' hover), hlast⟩

end Bytewise.Parser

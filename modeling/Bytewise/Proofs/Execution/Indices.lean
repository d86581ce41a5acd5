/-
How far literals have been compared.

One index serves all states that compare literals, and it outlives the
call in which a comparison has paused. It is zero unless it belongs to the
literal of the state that is entered next, and then it lies inside of it
(`IndexFits`): a comparison that comes to an end sets it back, no other
state touches it, and a state that waits is the one that is entered again.
So the emitted comparison, which reads its constant without looking at how
long it is, reads no byte beyond it.
-/
import Bytewise.Proofs.Execution.Returns
import Bytewise.Proofs.Execution.Sessions
import Bytewise.Proofs.Program.Resumption

namespace Bytewise

namespace Machine

-- ========================================================= comparisons

/-- The comparison as it is emitted: `constant` is the memory that the literal
lies in, of which `length` bytes are its. Answers what the comparison does, and
the places of the memory it reads. -/
def compareConstant (transform : Transform) (constant : Nat → UInt8)
    (length : Nat) :
    (input : List UInt8) → (index : Nat) → (LiteralStatus × Nat × Nat)
      × List Nat
  | [], index => ((.pause, 0, index), [])
  | b :: input, index =>
    if transform.apply b = constant index then
      if index + 1 = length then ((.complete, 0, 0), [index])
      else
        let ((status, read, last), places) :=
          compareConstant transform constant length input (index + 1)
        ((status, read + 1, last), index :: places)
    else ((.mismatch, 0, 0), [index])

/-- The memory holds the literal. -/
def Holds (constant : Nat → UInt8) (literal : List UInt8) : Prop :=
  ∀ n b, literal[n]? = some b → constant n = b

variable {t : Transform} {literal input : List UInt8} {constant : Nat → UInt8}
  {status : LiteralStatus} {index read last : Nat}

/-- From an index inside of the literal, the comparison stays inside, and does
what it is to do. -/
theorem compareConstant_eq (hholds : Holds constant literal) (t : Transform)
    (input : List UInt8) (hindex : index < literal.length) :
    (compareConstant t constant literal.length input index).1
      = matchLiteral t literal input index
      ∧ ∀ place ∈ (compareConstant t constant literal.length input index).2,
        place < literal.length := by
  induction input generalizing index with
  | nil => exact ⟨rfl, fun place hplace => absurd hplace List.not_mem_nil⟩
  | cons b input ih =>
      have hget := List.getElem?_eq_getElem hindex
      have hsame : t.apply b = constant index
          ↔ literal[index]? = some (t.apply b) := by
        rw [hholds index _ hget, hget, Option.some.injEq]
        exact eq_comm
      have honly : ∀ place ∈ [index], place < literal.length :=
        fun place hplace =>
        List.mem_singleton.mp hplace ▸ hindex
      unfold compareConstant matchLiteral
      by_cases hbyte : literal[index]? = some (t.apply b)
      · rw [if_pos (hsame.mpr hbyte), if_pos hbyte]
        by_cases hlast : index + 1 = literal.length
        · rw [if_pos hlast, if_pos hlast]
          exact ⟨rfl, honly⟩
        · rw [if_neg hlast, if_neg hlast]
          obtain ⟨hrest, hplaces⟩ := ih (Nat.lt_of_le_of_ne hindex hlast)
          refine ⟨by rw [← hrest], fun place hplace => ?_⟩
          rcases List.mem_cons.mp hplace with rfl | hplace
          · exact hindex
          · exact hplaces place hplace
      · rw [if_neg (mt hsame.mp hbyte), if_neg hbyte]
        exact ⟨rfl, honly⟩

/-- A comparison that pauses keeps an index inside of the literal; one that
ends sets it back. -/
theorem matchLiteral_index
    (h : matchLiteral t literal input index = (status, read, last)) :
    (status = .pause → index < literal.length → last < literal.length)
      ∧ (status ≠ .pause → last = 0) := by
  induction input generalizing index read with
  | nil =>
      obtain ⟨rfl, _, rfl⟩ : LiteralStatus.pause = status ∧ 0 = read
          ∧ index = last := by
        simpa [matchLiteral] using h
      exact ⟨fun _ hindex => hindex, fun hne => absurd rfl hne⟩
  | cons b input ih =>
      unfold matchLiteral at h
      split at h
      · split at h
        · cases h
          exact ⟨fun hpause => absurd hpause (by decide), fun _ => rfl⟩
        · rename_i hlast
          generalize hrest : matchLiteral t literal input (index + 1)
            = rest at h
          obtain ⟨status', read', last'⟩ := rest
          cases h
          obtain ⟨hpauses, hends⟩ := ih hrest
          exact ⟨fun hpause hindex => hpauses hpause
            (Nat.lt_of_le_of_ne hindex hlast), hends⟩
      · cases h
        exact ⟨fun hpause => absurd hpause (by decide), fun _ => rfl⟩

end Machine

namespace Parser

open Machine

variable {parser : Parser} {host : Host} {data data' chunk : List UInt8}
  {c c' : Config} {literal : List UInt8} {path : List StateId}
  {ending : Ending} {i i' : Instance} {result : Int32} {s : StateId}

-- ============================================================== states

/-- The literal that a state compares input with. -/
def literal? (parser : Parser) (s : StateId) : Option (List UInt8) :=
  match (parser.machine.state s).kind,
      (parser.machine.state s).edges.head?.bind (·.key) with
  | .sequence, some (.bytes literal) => some literal
  | _, _ => none

theorem literal?_eq_some : parser.literal? s = some literal
    ↔ (parser.machine.state s).kind = .sequence ∧ ∃ edge rest,
      (parser.machine.state s).edges = edge :: rest
      ∧ edge.key = some (.bytes literal) := by
  unfold literal?
  constructor
  · intro h
    split at h
    · rename_i hkind hkey
      obtain rfl := Option.some.inj h
      obtain ⟨edge, hhead, hkey⟩ := Option.bind_eq_some_iff.mp hkey
      obtain ⟨rest, hedges⟩ := List.head?_eq_some_iff.mp hhead
      exact ⟨hkind, edge, rest, hedges, hkey⟩
    · cases h
  · rintro ⟨hkind, edge, rest, hedges, hkey⟩
    simp [hkind, hedges, hkey]

/-- The index is zero, or inside of the literal of the state that is
entered. -/
def IndexFits (parser : Parser) (c : Config) : Prop :=
  c.index = 0 ∨ ∃ literal, parser.literal? c.state = some literal
    ∧ c.index < literal.length

/-- Where no literal is compared, the index is zero. -/
theorem IndexFits.zero (h : parser.IndexFits c)
    (hkind : (parser.machine.state c.state).kind ≠ .sequence) :
    c.index = 0 := by
  rcases h with hzero | ⟨literal, hliteral, -⟩
  · exact hzero
  · exact absurd (literal?_eq_some.mp hliteral).1 hkind

/-- A live sequence has a literal, and the index is inside of it. -/
theorem IndexFits.inside (h : parser.IndexFits c) (hwell : parser.WellFormed)
    (hlive : c.state ∈ parser.liveStates)
    (hkind : (parser.machine.state c.state).kind = .sequence) :
    ∃ literal, parser.literal? c.state = some literal
        ∧ c.index < literal.length := by
  rcases h with hzero | hinside
  · have hkeys := (hwell.states _ hlive).keys
    rw [hkind] at hkeys
    obtain ⟨literal, hmap, hlength⟩ := hkeys
    obtain ⟨edge, hedges, hkey⟩ := List.map_eq_singleton_iff.mp hmap
    refine ⟨literal, literal?_eq_some.mpr ⟨hkind, edge, [], hedges, hkey⟩, ?_⟩
    omega
  · exact hinside

-- =============================================================== steps

/-- Only the comparison of a literal changes the index. -/
theorem index_kept (hkind : (parser.machine.state c.state).kind ≠ .sequence)
    (h : parser.step host data c = .next c'
      ∨ parser.step host data c = .suspend c') :
    c'.index = c.index := by
  rcases h with h | h
  · cases advances_of_step h with
    | call _ _ => exact (call_frame c host _ _).2.2.2.2.2.1
    | compare kind _ _ _ _ => exact absurd kind hkind
    | skip _ _ _ | pass _ _ _ | branch _ _ _ | openSlot _ _ _
    | closeSlot _ _ _ => rfl
  · cases waits_of_step h with
    | compare kind _ _ _ => exact absurd kind hkind
    | skip _ _ | idle _ _ => rfl

/-- A comparison that goes on has come to its end, and one that waits has a
place to go on at. -/
private theorem index_compared
    (hkind : (parser.machine.state c.state).kind = .sequence)
    (hliteral : parser.literal? c.state = some literal) :
    (∀ c', parser.step host data c = .next c' → c'.index = 0)
      ∧ ∀ c', parser.step host data c = .suspend c' →
        c.index < literal.length →
        c'.index < literal.length := by
  refine ⟨fun c' hstep => ?_, fun c' hstep hindex => ?_⟩
  · cases advances_of_step hstep with
    | compare _ edges _ compared ends =>
        exact (matchLiteral_index compared).2
          (ends.mem (by rw [edges]; exact List.mem_cons_self)).2
    | branch kind _ _ =>
        rcases kind with kind | kind <;> cases hkind.symm.trans kind
    | skip kind _ _ | pass kind _ _ | call kind _ | openSlot kind _ _
    | closeSlot kind _ _ =>
        cases hkind.symm.trans kind
  · cases waits_of_step hstep with
    | @compare own edge rest _ _ kind edges key compared =>
        have hown := literal?_eq_some.mpr ⟨kind, edge, rest, edges, key⟩
        obtain rfl : literal = own :=
          Option.some.inj (hliteral.symm.trans hown)
        exact (matchLiteral_index compared).1 rfl hindex
    | skip kind _ => cases hkind.symm.trans kind
    | idle kind _ =>
        rw [hkind] at kind
        exact kind.elim

/-- The parser is about to enter a live state, and the index fits it. -/
structure Placed (parser : Parser) (c : Config) : Prop where
  live : c.state ∈ parser.liveStates
  index : parser.IndexFits c

/-- A state that goes on leaves the index at zero. -/
theorem Placed.next (h : parser.Placed c) (hwell : parser.WellFormed)
    (hstep : parser.step host data c = .next c') : parser.Placed c'
    ∧ c'.index = 0 := by
  obtain ⟨edge, hedge, hstate, -⟩ := followed_of_step hstep
  have hzero : c'.index = 0 := by
    by_cases hkind : (parser.machine.state c.state).kind = .sequence
    · obtain ⟨literal, hliteral, -⟩ := h.index.inside hwell h.live hkind
      exact (index_compared hkind hliteral).1 c' hstep
    · exact (index_kept hkind (Or.inl hstep)).trans (h.index.zero hkind)
  refine ⟨⟨?_, Or.inl hzero⟩, hzero⟩
  exact hstate ▸ hwell.live_of_target h.live (List.mem_map_of_mem hedge)

/-- A state that waits is the one that is entered again. -/
theorem Placed.suspend (h : parser.Placed c) (hwell : parser.WellFormed)
    (hstep : parser.step host data c = .suspend c') :
    parser.Placed c' ∧ ((parser.machine.state c'.state).kind ≠ .sequence →
        c'.index = 0) := by
  obtain ⟨hstate, -⟩ := waits_of_suspend hstep
  have hfits : parser.IndexFits c' := by
    by_cases hkind : (parser.machine.state c.state).kind = .sequence
    · obtain ⟨literal, hliteral, hindex⟩ := h.index.inside hwell h.live hkind
      exact Or.inr
        ⟨literal, hstate ▸ hliteral, (index_compared hkind hliteral).2 c'
        hstep hindex⟩
    · exact Or.inl
        ((index_kept hkind (Or.inr hstep)).trans (h.index.zero hkind))
  exact ⟨⟨hstate ▸ h.live, hfits⟩, hfits.zero⟩

-- ================================================================ runs

/-- In a call the parser stays placed, and sets the index back with every
transition. -/
theorem Placed.goes (h : parser.Placed c) (hwell : parser.WellFormed)
    (hgoes : parser.Goes host data c c') : parser.Placed c'
    ∧ (c' = c ∨ c'.index = 0) := by
  induction hgoes with
  | refl => exact ⟨h, Or.inl rfl⟩
  | tail _ hstep ih =>
      obtain ⟨hplaced, hzero⟩ := ih.1.next hwell hstep
      exact ⟨hplaced, Or.inr hzero⟩

/-- Whether a run ends with a comparison that has not. -/
def Ending.comparing (parser : Parser) : Ending → Bool
  | waits c => (parser.machine.state c.state).kind == .sequence
  | stops .. | interrupted .. => false

/-- A run that does not end within a comparison leaves the index at zero. -/
theorem Placed.passes (h : parser.Placed c) (hwell : parser.WellFormed)
    (hrun : parser.Passes host data c path ending) :
    parser.Placed ending.config
      ∧ (ending.comparing parser = false → ending.config.index = 0) := by
  induction hrun with
  | next step _ ih => exact ih (h.next hwell step).1
  | waits step =>
      obtain ⟨hplaced, hzero⟩ := h.suspend hwell step
      exact ⟨hplaced, fun hnot => hzero (beq_eq_false_iff_ne.mp hnot)⟩
  | stops step =>
      obtain ⟨rfl, hcode⟩ := code?_of_stop step
      refine ⟨h, fun _ => h.index.zero fun hkind => ?_⟩
      rw [hkind] at hcode
      cases hcode
  | interrupted _ step _ =>
      obtain ⟨hplaced, hzero⟩ := h.next hwell step
      exact ⟨hplaced, fun _ => hzero⟩

-- ============================================================ sessions

/-- The parsers that a host can come by, and whether they are in the middle of
a comparison. -/
inductive Rests (parser : Parser) (host : Host) : List UInt8 → Instance →
    Bool → Prop where
  | init : Rests parser host [] { config := parser.init } false
  /-- A call that reads on says it anew. -/
  | runs {data chunk data' : List UInt8} {i i' : Instance}
      {path : List StateId} {ending : Ending}
      {result : Int32} {comparing : Bool}
        (h : Rests parser host data i comparing) (ready : i.Ready)
      (run : parser.Passes host (data ++ chunk) (restart i.config) path ending)
      (settles : parser.Settles (data ++ chunk) ending result data' i') :
      Rests parser host data' i' (ending.comparing parser)
  /-- A call that does not read changes nothing about it. -/
  | returns {data chunk data' : List UInt8} {i i' : Instance}
      {path : List StateId}
      {result : Int32} {comparing : Bool}
        (h : Rests parser host data i comparing)
      (waits : ¬ i.Ready)
        (executes : parser.Executes host data chunk i path result data' i') :
      Rests parser host data' i' comparing
  | clear {data : List UInt8} {i : Instance} {comparing : Bool}
      (h : Rests parser host data i comparing) :
      Rests parser host data { i with error := 0 } comparing

/-- Of every session it can be said whether a comparison has not ended. -/
theorem session_iff_rests :
    parser.Session host data i ↔ ∃ comparing,
        parser.Rests host data i comparing := by
  constructor
  · intro h
    induction h with
    | init => exact ⟨false, .init⟩
    | @call data chunk data' i i' path result _ executes ih =>
        obtain ⟨comparing, hrests⟩ := ih
        by_cases hready : i.Ready
        · cases executes with
          | lingers error => exact absurd hready.error error
          | finished _ stopped =>
              exact nomatch hready.stopped.symm.trans stopped
          | runs ready run settles => exact ⟨_, hrests.runs ready run settles⟩
        · exact ⟨comparing, hrests.returns hready executes⟩
    | clear _ ih =>
        obtain ⟨comparing, hrests⟩ := ih
        exact ⟨comparing, hrests.clear⟩
  · rintro ⟨comparing, h⟩
    induction h with
    | init => exact .init
    | runs _ ready run settles ih => exact ih.call (.runs ready run settles)
    | returns _ _ executes ih => exact ih.call executes
    | clear _ ih => exact ih.clear

/-- The next call begins where the last one has ended. -/
theorem Placed.restart (h : parser.Placed c) : parser.Placed (restart c) :=
  ⟨h.live, h.index⟩

/-- What a run is left at is placed, and the index is what the run leaves. -/
theorem Settles.placed (hwell : parser.WellFormed)
    (h : parser.Settles data ending result data' i')
    (hplaced : parser.Placed ending.config)
    (hzero : ending.comparing parser = false → ending.config.index = 0) :
    parser.Placed i'.config
        ∧ (ending.comparing parser = false → i'.config.index = 0) := by
  cases h with
  | reads => exact ⟨⟨hplaced.live, hplaced.index⟩, hzero⟩
  | unflushed _ _ => exact ⟨⟨hplaced.live, hplaced.index⟩, hzero⟩
  | errs _ => exact ⟨hplaced, hzero⟩
  | @pauses c code reason otherwise kind next =>
      have hlive := hwell.live_of_target hplaced.live
        (List.mem_map_of_mem (otherwise_mem next))
      exact ⟨⟨hlive, Or.inl (hzero rfl)⟩, hzero⟩
  | interrupted => exact ⟨hplaced, hzero⟩

/-- A parser between two calls is placed, and its index is zero unless it is in
the middle of a comparison. -/
theorem Rests.placed (hwell : parser.WellFormed) {comparing : Bool}
    (h : parser.Rests host data i comparing) :
    parser.Placed i.config ∧ (comparing = false → i.config.index = 0) := by
  induction h with
  | init => exact ⟨⟨List.mem_cons_self, Or.inl rfl⟩, fun _ => rfl⟩
  | runs _ _ run settles ih =>
      obtain ⟨hplaced, hzero⟩ := ih.1.restart.passes hwell run
      exact settles.placed hwell hplaced hzero
  | returns _ waits executes ih =>
      cases executes with
      | lingers _ => exact ih
      | finished _ _ => exact ⟨ih.1.restart, ih.2⟩
      | runs ready _ _ => exact absurd ready waits
  | clear _ ih => exact ih

end Parser

end Bytewise

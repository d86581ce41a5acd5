/-
What calls of a parser return.

The function that a host calls returns zero where it has read the chunk it
is given. Where the parser stops, or the callback of a span fails, it leaves
an error behind and returns it, and so does every call after that until the
host clears the error. That there is one is told by its not being zero. So
the codes of errors and pauses are told from success as far as they are not
zero themselves; a call that ends in one of code zero looks as if it had
read its chunk.
-/
import Bytewise.Proofs.Execution.Pauses

namespace Bytewise

/-- The code that a state of the kind stops with. -/
def Machine.StateKind.code? : Machine.StateKind → Option Int32
  | .error code _ | .pause code _ => some code
  | _ => none

namespace Parser

open Machine

-- =============================================================== calls

/-- What a run comes to if callbacks of spans may fail. -/
inductive Ending where
  /-- It waits for input. -/
  | waits (c : Config)
  /-- It has entered an error or a pause. -/
  | stops (c : Config) (code : Int32)
  /-- The callback of a span that has been closed has not answered zero. -/
  | interrupted (c : Config) (answer : Int32)

/-- The parser after a run. -/
def Ending.config : Ending → Config
  | waits c | stops c _ | interrupted c _ => c

/-- A run passes through states and comes to an end. -/
inductive Passes (parser : Parser) (host : Host) (data : List UInt8) :
    Config → List StateId → Ending → Prop where
  | next {c c' : Config} {path : List StateId} {ending : Ending}
      (step : parser.step host data c = .next c')
      (rest : Passes parser host data c' path ending) :
      Passes parser host data c (c.state :: path) ending
  | waits {c c' : Config} (step : parser.step host data c = .suspend c') :
      Passes parser host data c [c.state] (.waits c')
  | stops {c c' : Config} {code : Int32} {reason : String}
      (step : parser.step host data c = .stop c' code reason) :
      Passes parser host data c [c.state] (.stops c' code)
  | interrupted {c c' : Config} {slot : SlotId} {callback : CodeId}
      {answer : Int32}
      (kind : (parser.machine.state c.state).kind = .spanEnd slot callback)
      (step : parser.step host data c = .next c') (failed : answer ≠ 0) :
      Passes parser host data c [c.state] (.interrupted c' answer)

/-- A parser as it is left between two calls. -/
structure Instance where
  config : Config
  /-- An error has been entered, and no call goes on. -/
  stopped : Bool := false
  /-- What the last call has left to be returned; zero if nothing. -/
  error : Int32 := 0

/-- The next call reads on. -/
structure Instance.Ready (i : Instance) : Prop where
  error : i.error = 0
  stopped : i.stopped = false

/-- What a call makes of the end of its run, with `data` as the input: what it
returns, the input that is behind the parser then, and what it leaves. -/
inductive Settles (parser : Parser) (data : List UInt8) :
    Ending → Int32 → List UInt8 → Instance → Prop where
  /-- What has been read of spans is handed over. -/
  | reads {c : Config} : Settles parser data (.waits c) 0 data
      { config := parser.finish data c }
  /-- A callback has failed when bytes were handed over to it. -/
  | unflushed {c : Config} {served : Nat} {answer : Int32}
      (due : served < (parser.flushed data c).length) (failed : answer ≠ 0) :
      Settles parser data (.waits c) answer data
        { config := { c with
            position := data.length
            deliveries :=
              c.deliveries ++ (parser.flushed data c).take (served + 1) }
          error := answer }
  | errs {c : Config} {code : Int32} {reason : String}
      (kind : (parser.machine.state c.state).kind = .error code reason) :
      Settles parser data (.stops c code) code (data.take c.position)
        { config := c, stopped := true, error := code }
  /-- The next call begins where the pause goes on to. -/
  | pauses {c : Config} {code : Int32} {reason : String}
      {otherwise : Machine.Edge}
      (kind : (parser.machine.state c.state).kind = .pause code reason)
      (next : (parser.machine.state c.state).otherwise = some otherwise) :
      Settles parser data (.stops c code) code (data.take c.position)
        { config := { c with state := otherwise.target }, error := code }
  | interrupted {c : Config} {answer : Int32} :
      Settles parser data (.interrupted c answer) answer (data.take c.position)
        { config := c, error := answer }

/-- A call with a chunk: the states it enters, what it returns, the input that
is behind the parser then, and what it leaves. -/
inductive Executes (parser : Parser) (host : Host) (data chunk : List UInt8)
    (i : Instance) :
    List StateId → Int32 → List UInt8 → Instance → Prop where
  /-- There still is an error. -/
  | lingers (error : i.error ≠ 0) : Executes parser host data chunk i []
      i.error data i
  /-- The parser has stopped for good, and the error has been cleared, or was
  none. -/
  | finished (error : i.error = 0) (stopped : i.stopped = true) :
      Executes parser host data chunk i [] i.error data
        { i with config := restart i.config }
  | runs {path : List StateId} {ending : Ending} {result : Int32}
      {data' : List UInt8}
      {i' : Instance} (ready : i.Ready)
      (run : parser.Passes host (data ++ chunk) (restart i.config) path ending)
      (settles : parser.Settles (data ++ chunk) ending result data' i') :
      Executes parser host data chunk i path result data' i'

/-- The parsers that a host can come by, with the input behind them: it calls,
and may clear the error in between. -/
inductive Session (parser : Parser) (host : Host) :
    List UInt8 → Instance → Prop where
  | init : Session parser host [] { config := parser.init }
  | call {data chunk data' : List UInt8} {i i' : Instance}
      {path : List StateId} {result : Int32}
      (h : Session parser host data i)
      (executes : parser.Executes host data chunk i path result data' i') :
      Session parser host data' i'
  | clear {data : List UInt8} {i : Instance} (h : Session parser host data i) :
      Session parser host data { i with error := 0 }

-- ============================================================= results

/-- The call has read its chunk, entered no error and no pause, and handed over
what it has read of spans. -/
structure ReadChunk (parser : Parser) (host : Host) (data chunk : List UInt8)
    (i : Instance) (path : List StateId) (i' : Instance) : Prop where
  waits : ∃ d, parser.Passes host (data ++ chunk)
    (restart i.config) path (.waits d)
    ∧ d.position = (data ++ chunk).length
    ∧ i' = { config := parser.finish (data ++ chunk) d }
  passes : ∀ s ∈ path, (parser.machine.state s).kind.code? = none

/-- Every further call returns the same, and does nothing. -/
def Latched (parser : Parser) (host : Host) (data : List UInt8) (i : Instance)
    (result : Int32) :
    Prop :=
  ∀ chunk path result' data' i',
    parser.Executes host data chunk i path result' data' i' ↔
    path = [] ∧ result' = result ∧ data' = data ∧ i' = i

/-- A call that reads on returns zero only if it has read its chunk, and where
it has entered an error or a pause it returns something else, and so do the
calls that follow. -/
def ReturnsTell (parser : Parser) : Prop :=
  ∀ host data chunk i path result data' i', parser.Session host data i →
    i.Ready → parser.Executes host data chunk i path result data' i' →
      (result = 0 → parser.ReadChunk host data chunk i path i')
        ∧ ((∃ s ∈ path, (parser.machine.state s).kind.code? ≠ none) →
          result ≠ 0 ∧ parser.Latched host data' i' result)

/-- No call enters an error or a pause of code zero. -/
def NeverStopsWithZero (parser : Parser) : Prop :=
  ∀ host data chunk i path result data' i', parser.Session host data i →
    parser.Executes host data chunk i path result data' i' →
      ∀ s ∈ path, (parser.machine.state s).kind.code? ≠ some 0

variable {parser : Parser} {host : Host} {label : SlotLabel}
  {data data' chunk : List UInt8} {c c' : Config} {path : List StateId}
  {ending : Ending} {i i' : Instance} {result code : Int32}

-- =============================================================== steps

/-- A state stops with the code of its kind. -/
theorem code?_of_stop {reason : String}
    (h : parser.step host data c = .stop c' code reason) :
    c' = c ∧ (parser.machine.state c.state).kind.code? = some code := by
  obtain ⟨hsame, hkind | hkind⟩ := stops_of_step h
  · exact ⟨hsame, by rw [hkind]; rfl⟩
  · exact ⟨hsame, by rw [hkind]; rfl⟩

/-- A state that goes on, or waits, is none that stops. -/
theorem code?_eq_none
    (h : parser.step host data c = .next c'
      ∨ parser.step host data c = .suspend c') :
    (parser.machine.state c.state).kind.code? = none := by
  cases hkind : (parser.machine.state c.state).kind with
  | error code reason => exact absurd hkind (goes_of_step h code reason).1
  | pause code reason => exact absurd hkind (goes_of_step h code reason).2
  | _ => rfl

-- ================================================================ runs

/-- A run that enters an error or a pause ends there, with its code. -/
theorem Passes.stops_of_mem (h : parser.Passes host data c path ending)
    {s : StateId} (hs : s ∈ path)
    (hcode : (parser.machine.state s).kind.code? = some code) :
    ∃ d, ending = .stops d code := by
  induction h with
  | next step _ ih =>
      rcases List.mem_cons.mp hs with rfl | hs
      · rw [code?_eq_none (Or.inl step)] at hcode
        cases hcode
      · exact ih hs
  | waits step =>
      rw [List.mem_singleton.mp hs, code?_eq_none (Or.inr step)] at hcode
      cases hcode
  | @stops c c' own reason step =>
      rw [List.mem_singleton.mp hs, (code?_of_stop step).2] at hcode
      exact ⟨c', by rw [Option.some.inj hcode]⟩
  | interrupted kind _ _ =>
      rw [List.mem_singleton.mp hs, kind] at hcode
      cases hcode

/-- A run that stops has entered an error or a pause. -/
theorem Passes.mem_of_stops {d : Config}
    (h : parser.Passes host data c path ending)
    (hending : ending = .stops d code) :
    ∃ s ∈ path, (parser.machine.state s).kind.code? = some code := by
  induction h with
  | next _ _ ih =>
      obtain ⟨s, hs, hcode⟩ := ih hending
      exact ⟨s, List.mem_cons_of_mem _ hs, hcode⟩
  | waits _ => cases hending
  | stops step =>
      obtain ⟨-, rfl⟩ := Ending.stops.inj hending
      exact ⟨_, List.mem_cons_self, (code?_of_stop step).2⟩
  | interrupted _ _ _ => cases hending

/-- Of the answers of callbacks, a run is interrupted by none that is zero. -/
theorem Passes.failed {d : Config} {answer : Int32}
    (h : parser.Passes host data c path ending)
    (hending : ending = .interrupted d answer) :
    answer ≠ 0 := by
  induction h with
  | next _ _ ih => exact ih hending
  | waits _ => cases hending
  | stops _ => cases hending
  | interrupted _ _ failed =>
      obtain ⟨-, rfl⟩ := Ending.interrupted.inj hending
      exact failed

/-- A run that waits has read all of the input, and keeps what is held. -/
theorem Passes.held (hd : parser.Disciplined label)
    (h : parser.Passes host data c path ending) (hheld : parser.Held label c)
    (hpos : c.position ≤ data.length) :
    parser.Held label ending.config ∧ ending.config.position ≤ data.length
      ∧ ∀ d, ending = .waits d → d.position = data.length := by
  induction h with
  | next step _ ih =>
      obtain ⟨hheld', hpos'⟩ := hheld.next hd hpos step
      exact ih hheld' hpos'
  | waits step =>
      obtain ⟨hstate, hended, hstarts, hholders, -⟩ := suspend_frame hpos step
      refine ⟨hheld.move hstarts hholders (hended ▸ hpos) fun _ _ hlabel =>
        hstate ▸ hlabel,
        Nat.le_of_eq hended, fun d heq => ?_⟩
      rw [← Ending.waits.inj heq]
      exact hended
  | stops step =>
      obtain ⟨rfl, -⟩ := code?_of_stop step
      exact ⟨hheld, hpos, fun _ heq => nomatch heq⟩
  | interrupted _ step _ =>
      obtain ⟨hheld', hpos'⟩ := hheld.next hd hpos step
      exact ⟨hheld', hpos', fun _ heq => nomatch heq⟩

-- ============================================================ sessions

/-- The slots of a parser that is called next are held, and the input behind it
is all there is. -/
structure Instance.Sound (parser : Parser) (label : SlotLabel)
    (data : List UInt8) (i : Instance) :
    Prop where
  held : parser.Held label (restart i.config)
  position : i.config.position = data.length

theorem Instance.Sound.within (h : i.Sound parser label data)
    (chunk : List UInt8) :
    (restart i.config).position ≤ (data ++ chunk).length := by
  show i.config.position ≤ _
  rw [h.position, List.length_append]
  exact Nat.le_add_right _ _

/-- Whatever a run comes to, the parser is left sound. -/
theorem Settles.sound (hd : parser.Disciplined label)
    (h : parser.Settles data ending result data' i')
    (hheld : parser.Held label ending.config)
    (hpos : ending.config.position ≤ data.length) :
    i'.Sound parser label data' := by
  have hcut : ∀ {c : Config}, c.position ≤ data.length →
      c.position = (data.take c.position).length := fun hle => by
    rw [List.length_take, Nat.min_eq_left hle]
  cases h with
  | reads => exact ⟨held_restart hheld, rfl⟩
  | unflushed due failed => exact ⟨held_restart hheld, rfl⟩
  | errs kind =>
      exact ⟨hheld.restart rfl rfl fun _ _ hlabel => hlabel, hcut hpos⟩
  | @pauses c code reason otherwise kind next =>
      have hmoves : parser.Moves ⟨fun _ _ => 0, fun _ fields _ => (0, fields)⟩
        data c data
        (restart { c with state := otherwise.target }) := .resume kind next
      exact ⟨(hheld.moves hd hpos hmoves).1, hcut hpos⟩
  | interrupted =>
      exact ⟨hheld.restart rfl rfl fun _ _ hlabel => hlabel, hcut hpos⟩

/-- A call leaves the parser sound. -/
theorem Executes.sound (hd : parser.Disciplined label)
    (hi : i.Sound parser label data)
    (h : parser.Executes host data chunk i path result data' i') :
    i'.Sound parser label data' := by
  cases h with
  | lingers error => exact hi
  | finished error stopped =>
      exact ⟨hi.held.restart rfl rfl fun _ _ hlabel => hlabel, hi.position⟩
  | runs ready run settles =>
      obtain ⟨hheld, hpos, -⟩ := run.held hd hi.held (hi.within chunk)
      exact settles.sound hd hheld hpos

/-- In a session the parser stays sound. -/
theorem Session.sound (hd : parser.Disciplined label)
    (h : parser.Session host data i) :
    i.Sound parser label data := by
  induction h with
  | init => exact ⟨fun _ _ hstart => (nomatch hstart), rfl⟩
  | call _ executes ih => exact executes.sound hd ih
  | clear _ ih => exact ⟨ih.held, ih.position⟩

-- ============================================================= results

/-- A call that leaves an error is followed by calls that return it. -/
theorem latched (herror : i.error ≠ 0) :
    parser.Latched host data i i.error := by
  intro chunk path result data' i'
  constructor
  · intro h
    cases h with
    | lingers error => exact ⟨rfl, rfl, rfl, rfl⟩
    | finished error _ => exact absurd error herror
    | runs ready _ _ => exact absurd ready.error herror
  · rintro ⟨rfl, rfl, rfl, rfl⟩
    exact .lingers herror

/-- What a call returns is the error that it leaves. -/
theorem Executes.error_eq
    (h : parser.Executes host data chunk i path result data' i') :
    i'.error = result := by
  cases h with
  | lingers error => rfl
  | finished error _ => rfl
  | runs _ _ settles => cases settles <;> rfl

/-- Only a call that reads on enters states. -/
theorem Executes.ready
    (h : parser.Executes host data chunk i path result data' i') {s : StateId}
    (hs : s ∈ path) : i.Ready := by
  cases h with
  | lingers _ => cases hs
  | finished _ _ => cases hs
  | runs ready _ _ => exact ready

/-- A call that enters an error or a pause returns its code. -/
theorem Executes.result_eq
    (h : parser.Executes host data chunk i path result data' i') {s : StateId}
    (hs : s ∈ path) (hcode : (parser.machine.state s).kind.code? = some code) :
    result = code := by
  cases h with
  | lingers _ => cases hs
  | finished _ _ => cases hs
  | runs _ run settles =>
      obtain ⟨d, rfl⟩ := run.stops_of_mem hs hcode
      cases settles with
      | errs _ => rfl
      | pauses _ _ => rfl

/-- A call that reads on returns zero where its run waits and its chunk is done
with, and where its run stops with code zero. -/
theorem Settles.zero_cases (h : parser.Settles data ending result data' i')
    (hzero : result = 0)
    (hfailed : ∀ c answer, ending = .interrupted c answer → answer ≠ 0) :
    (∃ c, ending = .waits c ∧ i' = { config := parser.finish data c })
      ∨ ∃ c, ending = .stops c 0 := by
  cases h with
  | reads => exact Or.inl ⟨_, rfl, rfl⟩
  | unflushed _ failed => exact absurd hzero failed
  | errs _ => exact Or.inr ⟨_, by rw [hzero]⟩
  | pauses _ _ => exact Or.inr ⟨_, by rw [hzero]⟩
  | interrupted => exact absurd hzero (hfailed _ _ rfl)

/-- A call that begins without an error returns zero in three cases: it has
read its chunk, it has entered an error or a pause of code zero, or the parser
has stopped for good before. -/
theorem Executes.zero_iff (hd : parser.Disciplined label)
    (hi : i.Sound parser label data) (hclear : i.error = 0)
    (h : parser.Executes host data chunk i path result data' i') :
    result = 0 ↔ parser.ReadChunk host data chunk i path i'
      ∨ (∃ s ∈ path, (parser.machine.state s).kind.code? = some 0)
          ∨ i.stopped = true := by
  constructor
  · intro hzero
    cases h with
    | lingers error => exact absurd hclear error
    | finished _ stopped => exact Or.inr (Or.inr stopped)
    | runs ready run settles =>
        rcases settles.zero_cases hzero (fun _ _ heq => run.failed heq) with
          ⟨c, rfl, rfl⟩ | ⟨c, rfl⟩
        · obtain ⟨-, -, hall⟩ := run.held hd hi.held (hi.within chunk)
          refine Or.inl ⟨⟨c, run, hall c rfl, rfl⟩, fun s hs => ?_⟩
          refine Option.eq_none_iff_forall_ne_some.mpr fun code hcode => ?_
          obtain ⟨_, heq⟩ := run.stops_of_mem hs hcode
          cases heq
        · exact Or.inr (Or.inl (run.mem_of_stops rfl))
  · rintro (hread | ⟨s, hs, hcode⟩ | hstopped)
    · obtain ⟨d, -, -, rfl⟩ := hread.waits
      exact h.error_eq.symm
    · exact h.result_eq hs hcode
    · cases h with
      | lingers error => exact absurd hclear error
      | finished _ _ => exact hclear
      | runs ready _ _ => exact nomatch ready.stopped.symm.trans hstopped

/-- What calls return tells what they have done unless one stops with code
zero. -/
theorem Disciplined.returnsTell_iff (hd : parser.Disciplined label) :
    parser.ReturnsTell ↔ parser.NeverStopsWithZero := by
  constructor
  · intro htell host data chunk i path result data' i' hsession h s hs hcode
    obtain ⟨-, hstops⟩ := htell _ _ _ _ _ _ _ _ hsession (h.ready hs) h
    exact (hstops ⟨s, hs, by rw [hcode]; exact Option.some_ne_none 0⟩).1
      (h.result_eq hs hcode)
  · intro hnever host data chunk i path result data' i' hsession hready h
    have hcodes := hnever _ _ _ _ _ _ _ _ hsession h
    refine ⟨fun hzero => ?_, fun ⟨s, hs, hne⟩ => ?_⟩
    · rcases (h.zero_iff hd (hsession.sound hd) hready.error).mp hzero with
        hread | ⟨s, hs, hcode⟩ | hstopped
      · exact hread
      · exact absurd hcode (hcodes s hs)
      · exact nomatch hready.stopped.symm.trans hstopped
    · obtain ⟨code, hcode⟩ := Option.ne_none_iff_exists'.mp hne
      obtain rfl := h.result_eq hs hcode
      have hnonzero : result ≠ 0 := fun hzero => hcodes s hs (hzero ▸ hcode)
      refine ⟨hnonzero, ?_⟩
      rw [← h.error_eq] at hnonzero ⊢
      exact latched hnonzero

end Parser

end Bytewise

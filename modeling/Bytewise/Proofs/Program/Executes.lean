/-
Runs of a program.

A run goes from body to body until one returns. It ends where a run of the
parser ends, with what the parser leaves: the state to go on in, and an
error if it has stopped or a callback of a span has failed. Without the
vector unit every run of the parser is one of the program; with it, a run
of the program goes the same way in fewer bodies.
-/
import Bytewise.Proofs.Execution.Indices
import Bytewise.Proofs.Program.Statements

namespace Bytewise

namespace Program

open Bytewise.Parser (Ending)

variable {parser : Parser} {program : Program} {host : Host}
  {data : List UInt8} {vector : Bool} {answer : Int32} {c c' : Parser.Config}
  {label : Label} {m : Memory}

/-- A run of a program from the body of a state to a return. -/
inductive Runs (parser : Parser) (program : Program) (host : Host)
    (data : List UInt8) (vector : Bool) :
    Parser.Config → Label → Memory → Prop where
  | goes {code : State} {answer : Int32} {c c' : Parser.Config}
      {label : Label} {m : Memory} (made : code ∈ program.states)
      (entered : c.state = code.id)
      (left : exec parser host data vector answer code.body { config := c }
        = .goes c')
      (rest : Runs parser program host data vector c' label m) :
      Runs parser program host data vector c label m
  | returns {code : State} {answer : Int32} {c : Parser.Config}
      {label : Label} {m : Memory} (made : code ∈ program.states)
      (entered : c.state = code.id)
      (left : exec parser host data vector answer code.body { config := c }
        = .returns label m) :
      Runs parser program host data vector c label m

/-- What a program returns and has stored where a run of its parser ends. -/
inductive Ends (parser : Parser) (data : List UInt8) :
    Ending → Label → Memory → Prop where
  /-- All input is read. The position does not matter any more. -/
  | waits {c : Parser.Config} {m : Memory}
      (same : { m.config with position := data.length }
        = { c with position := data.length })
      (error : m.error = none) (current : m.current = none) :
      Ends parser data (.waits c) (.state c.state) m
  | errs {c : Parser.Config} {code : Int32} {reason : String} {m : Memory}
      (kind : (parser.machine.state c.state).kind = .error code reason)
      (same : m.config = c) (error : m.error = some code)
      (reason : m.reason = some reason) (current : m.current = some .error) :
      Ends parser data (.stops c code) .error m
  | pauses {c : Parser.Config} {code : Int32} {reason : String} {m : Memory}
      {otherwise : Machine.Edge}
      (kind : (parser.machine.state c.state).kind = .pause code reason)
      (next : (parser.machine.state c.state).otherwise = some otherwise)
      (same : m.config = c) (error : m.error = some code)
      (reason : m.reason = some reason)
      (current : m.current = some (.state otherwise.target)) :
      Ends parser data (.stops c code) .error m
  | interrupted {c : Parser.Config} {answer : Int32} {m : Memory}
      (same : { m.config with state := c.state } = c)
      (error : m.error = some answer)
      (current : m.current = some (.state c.state)) :
      Ends parser data (.interrupted c answer) .error m

/-- Every body does what the parser does. -/
def Simulates (parser : Parser) (program : Program) : Prop :=
  ∀ host data vector answer (c : Parser.Config), ∀ code ∈ program.states,
    c.state = code.id → Follows parser host data vector answer c
      (exec parser host data vector answer code.body { config := c })

-- =============================================================== runs

/-- Steps before a run are part of it. -/
theorem passes_of_transGen {ending : Ending} {path : List StateId}
    (hsteps : Relation.TransGen
      (fun c d => parser.step host data c = .next d) c c')
    (hrest : Parser.Passes parser host data c' path ending) :
    ∃ path, Parser.Passes parser host data c path ending := by
  induction hsteps using Relation.TransGen.head_induction_on with
  | single hstep => exact ⟨_, .next hstep hrest⟩
  | head hstep _ ih =>
      obtain ⟨path, hpath⟩ := ih
      exact ⟨_, .next hstep hpath⟩

/-- Where a body returns, the parser comes to an end. -/
theorem Follows.passes
    (h : Follows parser host data vector answer c (.returns label m)) :
    ∃ ending, Parser.Passes parser host data c [c.state] ending
      ∧ Ends parser data ending label m := by
  cases h with
  | @waits c' _ step same error current =>
      have hstate : c'.state = c.state := (Parser.waits_of_suspend step).1
      refine ⟨_, .waits step, ?_⟩
      rw [← hstate]
      exact .waits same error current
  | errs kind step same error reason current =>
      exact ⟨_, .stops step, .errs kind same error reason current⟩
  | pauses kind next step same error reason current =>
      exact ⟨_, .stops step, .pauses kind next same error reason current⟩
  | interrupted kind failed step same error current =>
      exact ⟨_, .interrupted kind step failed,
        .interrupted same error current⟩

/-- A run of the program is one of the parser. -/
theorem passes_of_runs (h : Simulates parser program)
    (hrun : Runs parser program host data vector c label m) :
    ∃ path ending, Parser.Passes parser host data c path ending
      ∧ Ends parser data ending label m := by
  induction hrun with
  | @goes code answer c c' label m made entered left rest ih =>
      have hfollows := h host data vector answer c code made entered
      rw [left] at hfollows
      cases hfollows with
      | goes steps one served =>
          obtain ⟨path, ending, hpath, hends⟩ := ih
          obtain ⟨path, hpath⟩ := passes_of_transGen steps hpath
          exact ⟨path, ending, hpath, hends⟩
  | @returns code answer c label m made entered left =>
      have hfollows := h host data vector answer c code made entered
      rw [left] at hfollows
      obtain ⟨ending, hpath, hends⟩ := hfollows.passes
      exact ⟨_, ending, hpath, hends⟩

/-- Without the vector unit, the next body does the next step of the
parser. -/
theorem Follows.of_step {exit : Exit}
    (h : Follows parser host data false answer c exit)
    (hanswer : (parser.machine.state c.state).kind.EndsSpan → answer = 0)
    (hstep : parser.step host data c = .next c') : exit = .goes c' := by
  cases h with
  | goes steps one served =>
      rw [one rfl] at hstep
      exact congrArg Exit.goes (Parser.Step.next.inj hstep)
  | waits step same error current =>
      rw [step] at hstep
      cases hstep
  | errs kind step same error reason current =>
      rw [step] at hstep
      cases hstep
  | pauses kind next step same error reason current =>
      rw [step] at hstep
      cases hstep
  | interrupted kind failed step same error current =>
      exact absurd (hanswer (kind ▸ trivial)) failed

/-- Where the parser comes to an end in a state, its body returns. -/
theorem Follows.ends {ending : Ending} {exit : Exit}
    (h : Follows parser host data false answer c exit)
    (hpath : Parser.Passes parser host data c [c.state] ending)
    (hanswer : ∀ c' failed, ending = .interrupted c' failed →
      answer = failed) :
    ∃ label m, exit = .returns label m ∧ Ends parser data ending label m := by
  cases hpath with
  | next step rest => cases rest
  | @waits _ c' step =>
      cases h with
      | goes steps one served => exact nomatch step.symm.trans (one rfl)
      | waits step' same error current =>
          obtain rfl := Parser.Step.suspend.inj (step.symm.trans step')
          rw [← (Parser.waits_of_suspend step).1]
          exact ⟨_, _, rfl, .waits same error current⟩
      | errs kind step' _ _ _ _ => exact nomatch step.symm.trans step'
      | pauses kind next step' _ _ _ _ => exact nomatch step.symm.trans step'
      | interrupted kind failed step' _ _ _ =>
          exact nomatch step.symm.trans step'
  | stops step =>
      cases h with
      | goes steps one served => exact nomatch step.symm.trans (one rfl)
      | waits step' _ _ _ => exact nomatch step.symm.trans step'
      | errs kind step' same error reason current =>
          obtain ⟨rfl, rfl, -⟩ := Parser.Step.stop.inj (step.symm.trans step')
          exact ⟨_, _, rfl, .errs kind same error reason current⟩
      | pauses kind next step' same error reason current =>
          obtain ⟨rfl, rfl, -⟩ := Parser.Step.stop.inj (step.symm.trans step')
          exact ⟨_, _, rfl, .pauses kind next same error reason current⟩
      | interrupted kind failed step' _ _ _ =>
          exact nomatch step.symm.trans step'
  | @interrupted _ c' slot callback failed kind step hfailed =>
      obtain rfl := hanswer c' failed rfl
      cases h with
      | goes steps one served => exact absurd (served (kind ▸ trivial)) hfailed
      | waits step' _ _ _ => exact nomatch step.symm.trans step'
      | errs kind step' _ _ _ _ => exact nomatch step.symm.trans step'
      | pauses kind next step' _ _ _ _ => exact nomatch step.symm.trans step'
      | interrupted kind failed step' same error current =>
          obtain rfl := Parser.Step.next.inj (step.symm.trans step')
          exact ⟨_, _, rfl, .interrupted same error current⟩

/-- Without the vector unit, a run of the parser is one of the program. -/
theorem runs_of_passes (h : Simulates parser program)
    (hwell : parser.WellFormed)
    (hmade : ∀ s ∈ parser.liveStates, ∃ code ∈ program.states, s = code.id)
    {path : List StateId} {ending : Ending}
    (hpath : Parser.Passes parser host data c path ending)
    (hlive : c.state ∈ parser.liveStates) :
    ∃ label m, Runs parser program host data false c label m
      ∧ Ends parser data ending label m := by
  have hends : ∀ {c : Parser.Config} {ending : Ending},
      c.state ∈ parser.liveStates →
      Parser.Passes parser host data c [c.state] ending → ∃ label m,
        Runs parser program host data false c label m
          ∧ Ends parser data ending label m := by
    intro c ending hlive hpath
    obtain ⟨code, hcode, hc⟩ := hmade c.state hlive
    obtain ⟨label, m, hexit, hends⟩ := (h host data false
      (match ending with | .interrupted _ answer => answer | _ => 0) c code
      hcode hc).ends hpath (by rintro c' failed rfl; rfl)
    exact ⟨label, m, .returns hcode hc hexit, hends⟩
  induction hpath with
  | @next c c' path ending step rest ih =>
      obtain ⟨code, hcode, hc⟩ := hmade c.state hlive
      obtain ⟨edge, hedge, hstate, -⟩ := Parser.followed_of_step step
      obtain ⟨label, m, hrun, hends⟩ := ih
        (hstate ▸ hwell.live_of_target hlive (List.mem_map_of_mem hedge))
      have hexit := (h host data false 0 c code hcode hc).of_step
        (fun _ => rfl) step
      exact ⟨label, m, .goes hcode hc hexit hrun, hends⟩
  | waits step => exact hends hlive (.waits step)
  | stops step => exact hends hlive (.stops step)
  | interrupted kind step failed =>
      exact hends hlive (.interrupted kind step failed)

-- =========================================================== programs

/-- What the debug hook is told does not change what a body works on. -/
theorem exec_traces {traces : List Stmt}
    (h : ∀ stmt ∈ traces, ∃ hook message, stmt = .trace hook message)
    (body : List Stmt) (m : Memory) :
    exec parser host data vector answer (traces ++ body) m
      = exec parser host data vector answer body m := by
  induction traces with
  | nil => rfl
  | cons stmt traces ih =>
      obtain ⟨⟨hook, message, rfl⟩, hrest⟩ := List.forall_mem_cons.mp h
      rw [List.cons_append, exec]
      exact ih hrest

variable {g : Graph} {root : NodeId} {symbolPrefix : String}
  {options : Options} {debugHook headerName : Option String}

/-- The bodies of a program do what its parser does, if the names that it
calls differ. -/
theorem simulates_of_ofGraph (hg : g.Built)
    (hok : Parser.ofGraph g root symbolPrefix options = .ok parser)
    (hprogram : ofParser parser debugHook headerName = .ok program)
    (hnames : ((emittedCodes parser).map fun id =>
      (parser.machine.code id).name).Nodup) :
    Simulates parser program := by
  intro host data vector answer c code hcode hc
  obtain ⟨s, hs, hstate⟩ :=
    exists_of_mem_right (states_of_ofParser hprogram).1 hcode
  obtain rfl := Parser.id_of_stateOf hstate
  by_cases hkind : (parser.machine.state code.id).kind = .table
  · obtain ⟨entries, skips, default, hlooks⟩ :=
      Parser.looksUp_of_ofGraph hg hok hprogram hcode hkind
    obtain ⟨traces, htraces, hbody⟩ := hlooks.body
    rw [hbody, exec_traces htraces]
    exact follows_table hlooks hc hkind
  · obtain ⟨body, hmade, hrest⟩ := ok_of_bind hstate
    have hbody : code.body = debugHook.toList.map (fun hook =>
        Stmt.trace hook (traceMessage (parser.machine.state code.id)))
        ++ body := by
      rw [← Except.ok.inj hrest]
    rw [hbody, exec_traces fun stmt hstmt => by
      obtain ⟨hook, _, rfl⟩ := List.mem_map.mp hstmt
      exact ⟨hook, _, rfl⟩]
    have hmentioned : ∀ id ∈ mentionedCodes parser
        (parser.machine.state c.state),
        codeNamed parser (parser.machine.code id).name = id := by
      intro id hid
      refine codeNamed_code hnames (List.mem_eraseDups.mpr
        (List.mem_append_right _ (List.mem_flatMap.mpr
          ⟨code.id, hs, hc ▸ hid⟩)))
    rw [← hc] at hmade hkind
    exact follows_of_bodyOf (bodyOf_of_kindBody hmade) rfl hkind hmentioned
      host data vector answer

/-- Without the vector unit, runs of a program and runs of its parser from
the root are the same. With it, every run of the program still is one of
the parser. -/
theorem runs_iff_of_ofGraph (hg : g.Built)
    (hok : Parser.ofGraph g root symbolPrefix options = .ok parser)
    (hprogram : ofParser parser debugHook headerName = .ok program)
    (hnames : ((emittedCodes parser).map fun id =>
      (parser.machine.code id).name).Nodup)
    (hlive : c.state ∈ parser.liveStates) :
    (∀ path ending, Parser.Passes parser host data c path ending → ∃ label m,
        Runs parser program host data false c label m
          ∧ Ends parser data ending label m)
      ∧ ∀ vector label m, Runs parser program host data vector c label m →
        ∃ path ending, Parser.Passes parser host data c path ending
          ∧ Ends parser data ending label m := by
  have hsimulates := simulates_of_ofGraph hg hok hprogram hnames
  have hwell := Parser.wellFormed_of_ofGraph hg.sound hok
  refine ⟨fun path ending hpath => ?_, fun vector label m hrun =>
    passes_of_runs hsimulates hrun⟩
  refine runs_of_passes hsimulates hwell (fun s hs => ?_) hpath hlive
  obtain ⟨code, hcode, hstate⟩ := exists_of_mem_left
    (states_of_ofParser hprogram).1 (hwell.mem_emissionOrder.mpr hs)
  exact ⟨code, hcode, (Parser.id_of_stateOf hstate).symm⟩

end Program

end Bytewise

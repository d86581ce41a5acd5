/-
The names that an assembly hands out.

Two supplies name what is assembled: one the states, one the codes of
intrinsics; callbacks keep the names of the user's. What holds of the
names is a fact of every step alone. So it is enough to look at the
actions that change an assembly (`Stable`): all that is made of them keeps
what they keep, and fails with what they fail with (`Keeps`).
-/
import Bytewise.Proofs.Machine.Onward
import Bytewise.Proofs.NameSupply
import Bytewise.Proofs.Parser.Actions
import Bytewise.Proofs.Parser.WellFormed

namespace Bytewise

namespace Assembly

variable {I : Assembly → Prop} {E : Cause → Prop} {α β : Type}

/-- If `I` held before the program, it holds after it; if the program fails,
`E` holds of the cause. -/
def Keeps (I : Assembly → Prop) (E : Cause → Prop) (x : Assemble α) : Prop :=
  ∀ a, I a → Answers x a (fun _ b => I b) ∧ FailsWith E (x.run a)

/-- What no action breaks: a new state under a fresh name, a change of edges, a
node entered, a code added. Adding a code is all that can fail for its name. -/
structure Stable (I : Assembly → Prop) (E : Cause → Prop) : Prop where
  pushed : ∀ {a} nodeName kind transform, I a →
    I (a.pushed (a.stateNames.alloc nodeName).2
    { name := (a.stateNames.alloc nodeName).1, nodeName, kind, transform })
  changed : ∀ {a} s change, (∀ state : Machine.State,
    (change state).name = state.name
    ∧ (change state).nodeName = state.nodeName) → I a →
    I (a.changed s change)
  entering : ∀ {a} n s, I a → I (a.entering n s)
  added : ∀ code, Keeps I E (Assembly.addCode code)
  others : ∀ cause, (∀ name, cause ≠ .codeNameConflict name) → E cause

-- ============================================================ programs

namespace Keeps

theorem pure (v : α) : Keeps I E (Pure.pure v : Assemble α) :=
  fun _ h => ⟨Answers.pure h, .ok _⟩

theorem throw {cause : Cause} (h : E cause) :
    Keeps I E (MonadExcept.throw cause : Assemble α) :=
  fun _ _ => ⟨Answers.throw, fun _ heq => Except.error.inj heq ▸ h⟩

/-- A sequence keeps what its steps keep. -/
theorem bind {x : Assemble α} {f : α → Assemble β} (hx : Keeps I E x)
    (hf : ∀ v, Keeps I E (f v)) : Keeps I E (x >>= f) := by
  intro a h
  obtain ⟨hanswers, hfails⟩ := hx a h
  refine ⟨hanswers.bind fun v b hb => (hf v b hb).1, ?_⟩
  rw [StateT.run_bind]
  exact hfails.bind fun (v, b) hrun => (hf v b (hanswers v b hrun)).2

theorem get_bind {f : Assembly → Assemble β} (hf : ∀ a, Keeps I E (f a)) :
    Keeps I E (MonadState.get >>= f) :=
  fun a h => hf a a h

/-- A step that does not fail. -/
theorem of_run {x : Assemble α} {v : Assembly → α} {next : Assembly → Assembly}
    (hrun : ∀ a, x.run a = .ok (v a, next a)) (h : ∀ a, I a → I (next a)) :
    Keeps I E x := by
  intro a ha
  refine ⟨fun w b hw => ?_, ?_⟩
  · obtain ⟨-, rfl⟩ := Prod.mk.inj (Except.ok.inj ((hrun a).symm.trans hw))
    exact h a ha
  · rw [hrun]
    exact .ok _

end Keeps

-- ============================================================= actions

/-- Adding a state keeps what is stable. -/
theorem Stable.addState (hI : Stable I E) (nodeName : String)
    (kind : Machine.StateKind) (transform : Option Transform) :
    Keeps I E (Assembly.addState nodeName kind transform) :=
  .of_run (fun _ => rfl) fun _ h => hI.pushed nodeName kind transform h

theorem Stable.enter (hI : Stable I E) (n : NodeId) (s : StateId) :
    Keeps I E (Assembly.enter n s) :=
  .of_run (fun _ => rfl) fun _ h => hI.entering n s h

theorem Stable.setEdges (hI : Stable I E) (s : StateId)
    (edges : List Machine.Edge) :
    Keeps I E (Assembly.setEdges s edges) :=
  .of_run (fun _ => rfl) fun _ h => hI.changed s ({ · with edges })
    (fun _ => ⟨rfl, rfl⟩) h

theorem Stable.setOtherwise (hI : Stable I E) (s : StateId)
    (edge : Machine.Edge) :
    Keeps I E (Assembly.setOtherwise s edge) :=
  .of_run (fun _ => rfl) fun _ h =>
    hI.changed s ({ · with otherwise := some edge }) (fun _ => ⟨rfl, rfl⟩) h

theorem Stable.fillOtherwise (hI : Stable I E) (edge : Machine.Edge)
    (s : StateId) :
    Keeps I E (Assembly.fillOtherwise edge s) := by
  refine .of_run (fun _ => rfl) fun _ h => hI.changed s (fun state =>
    if state.otherwise.isNone then
      { state with otherwise := some edge } else state)
    (fun state => ?_) h
  split <;> exact ⟨rfl, rfl⟩

/-- What no action breaks is inherited by all that is made of the actions. -/
theorem Stable.inherited (hI : Stable I E) :
    Inherited fun _ x => Keeps I E x where
  pure v := Keeps.pure v
  bind hx hf := hx.bind hf
  ask _ _ _ hf := Keeps.get_bind hf
  throw cause hother := Keeps.throw (hI.others cause hother)
  addState := hI.addState
  enter := hI.enter
  setEdges := hI.setEdges
  setOtherwise := hI.setOtherwise
  fillOtherwise := hI.fillOtherwise
  addCode := hI.added

/-- What no action breaks holds of what is assembled, if it holds of an
assembly with nothing done. -/
theorem Stable.assemble {bp : Blueprint} (hI : Stable I E) (root : NodeId) :
    Keeps I E (bp.assemble root) :=
  hI.inherited.assemble root

end Assembly

-- =============================================================== names

/-- The names of a machine for symbols that start with `symbolPrefix`. -/
structure Machine.Named (symbolPrefix : String) (m : Machine) : Prop where
  states : ∀ s, s < m.size → ∃ rest, (m.state s).name = symbolPrefix
    ++ "__n_" ++ rest
  codes : ∀ c, c < m.codes.size → (m.code c).kind.isExternal = false →
    ∃ rest, (m.code c).name = symbolPrefix ++ "__c_" ++ rest
  /-- Intrinsics have names of their own. -/
  distinct : ∀ c d, c < m.codes.size → d < m.codes.size →
    (m.code c).kind.isExternal = false →
    (m.code d).kind.isExternal = false → (m.code c).name = (m.code d).name →
      c = d

/-- The codes of the machine that are no callbacks. -/
def Machine.intrinsics (m : Machine) : List Code :=
  m.codes.toList.filter fun code => !code.kind.isExternal

theorem Machine.getElem_states {m : Machine} {s : StateId}
    (hs : s < m.states.size) :
    m.states.toList[s] = m.state s := by
  simp [Machine.state, Array.getD, hs]

theorem Machine.getElem_codes {m : Machine} {c : CodeId}
    (hc : c < m.codes.size) :
    m.codes.toList[c] = m.code c := by
  simp [Machine.code, Array.getD, hc]

/-- Names are told apart in a machine if they have been handed out one after
the other. -/
theorem Machine.named_of_unique {symbolPrefix : String} {m : Machine}
    (nodes asked : List String)
    (hstates : NameSupply.Unique (symbolPrefix ++ "__n_") nodes
      (m.states.toList.map (·.name)))
    (hcodes : NameSupply.Unique (symbolPrefix ++ "__c_") asked
      (m.intrinsics.map (·.name))) :
    m.Named symbolPrefix := by
  have hapart : ∀ c d, c < d → d < m.codes.size →
      (m.code c).kind.isExternal = false →
      (m.code d).kind.isExternal = false →
          (m.code c).name ≠ (m.code d).name := by
    intro c d hlt hd hcin hdin
    have hpairs :=
      List.pairwise_filter.mp (List.pairwise_map.mp hcodes.distinct)
    have hpair := List.pairwise_iff_getElem.mp hpairs c d (hlt.trans hd) hd hlt
    rw [getElem_codes (hlt.trans hd), getElem_codes hd] at hpair
    exact hpair (by rw [hcin]; rfl) (by rw [hdin]; rfl)
  refine ⟨fun s hs => ?_, fun c hc hinternal => ?_,
    fun c d hc hd hcin hdin heq => ?_⟩
  · have hmem : m.state s ∈ m.states.toList :=
      getElem_states (m := m) hs ▸ List.getElem_mem _
    obtain ⟨rest, hrest, -⟩ := hstates.words _ (List.mem_map_of_mem hmem)
    exact ⟨rest, hrest⟩
  · have hmem : m.code c ∈ m.codes.toList :=
      getElem_codes hc ▸ List.getElem_mem _
    have hkept : m.code c ∈ m.intrinsics :=
      List.mem_filter.mpr ⟨hmem, by rw [hinternal]; rfl⟩
    obtain ⟨rest, hrest, -⟩ := hcodes.words _ (List.mem_map_of_mem hkept)
    exact ⟨rest, hrest⟩
  · rcases Nat.lt_trichotomy c d with hlt | rfl | hlt
    · exact absurd heq (hapart c d hlt hd hcin hdin)
    · rfl
    · exact absurd heq.symm (hapart d c hlt hc hdin hcin)

namespace Assembly

variable {symbolPrefix : String} {a : Assembly}

/-- The supplies have handed out the names of the states, for the names of
their nodes, and the names of the intrinsics. -/
structure Supplied (symbolPrefix : String) (a : Assembly) : Prop where
  states : NameSupply.handOut { stem := symbolPrefix ++ "__n_" }
    (a.machine.states.toList.map (·.nodeName))
      = (a.machine.states.toList.map (·.name), a.stateNames)
  codes : ∃ asked, NameSupply.handOut { stem := symbolPrefix ++ "__c_" } asked
    = (a.machine.intrinsics.map (·.name), a.codeNames)

/-- Every action hands out the names that it gives. -/
theorem supplied_stable (symbolPrefix : String) :
    Stable (Supplied symbolPrefix) fun _ => True where
  pushed {a} nodeName kind transform h := by
    refine ⟨?_, h.codes⟩
    show NameSupply.handOut _ ((a.machine.states.push _).toList.map _) = _
    rw [Array.toList_push, List.map_append, List.map_singleton,
      NameSupply.handOut_concat, h.states]
    show _ = ((a.machine.states.push _).toList.map _, _)
    rw [Array.toList_push, List.map_append, List.map_singleton]
    rfl
  changed {a} s change hkept h := by
    refine ⟨?_, h.codes⟩
    show NameSupply.handOut _ ((a.machine.states.modify s change).toList.map _)
      = ((a.machine.states.modify s change).toList.map _, _)
    rw [Array.toList_modify, map_modify fun state => (hkept state).2,
      map_modify fun state => (hkept state).1]
    exact h.states
  entering _ _ h := ⟨h.states, h.codes⟩
  others _ _ := trivial
  added code a h := by
    refine ⟨fun _ _ hrun => ?_, fun _ _ => trivial⟩
    cases Assembly.added a code with
    | found id lt key kind run =>
        obtain ⟨-, rfl⟩ := Prod.mk.inj (Except.ok.inj (hrun.symm.trans run))
        exact h
    | conflict id lt key kind run => exact nomatch hrun.symm.trans run
    | fresh name codeNames key callback intrinsic run =>
        obtain ⟨-, rfl⟩ := Prod.mk.inj (Except.ok.inj (hrun.symm.trans run))
        obtain ⟨asked, hasked⟩ := h.codes
        have hpush : (a.coded codeNames { code with name }).machine.intrinsics
            = a.machine.intrinsics ++ [{ code with name }].filter
                (!·.kind.isExternal) := by
          show (a.machine.codes.push _).toList.filter _ = _
          rw [Array.toList_push, List.filter_append]
          rfl
        cases hexternal : code.kind.isExternal with
        | true =>
            obtain ⟨rfl, rfl⟩ := callback hexternal
            refine ⟨h.states, asked, ?_⟩
            rw [hpush, List.filter_singleton, hexternal]
            exact hasked.trans (by simp [coded])
        | false =>
            refine ⟨h.states, asked ++ [code.name], ?_⟩
            rw [hpush, List.filter_singleton, hexternal,
              NameSupply.handOut_concat, hasked,
              ← intrinsic hexternal]
            simp [coded]

/-- An empty assembly has handed out nothing. -/
theorem supplied_start (symbolPrefix : String) (size : Nat) :
    Supplied symbolPrefix (start symbolPrefix size) :=
  ⟨rfl, [], rfl⟩

end Assembly

namespace Parser

variable {parser : Parser} {g : Graph} {root : NodeId} {symbolPrefix : String}
  {options : Options}

/-- The names of what is made of a graph are those its supplies have handed
out: the states', for the names of their nodes, and the intrinsics'. -/
theorem supplied_of_ofGraph
    (hok : ofGraph g root symbolPrefix options = .ok parser) :
    parser.machine.states.toList.map (·.name)
      = (NameSupply.handOut { stem := symbolPrefix ++ "__n_" }
        (parser.machine.states.toList.map (·.nodeName))).1
    ∧ ∃ asked, parser.machine.intrinsics.map (·.name)
      = (NameSupply.handOut { stem := symbolPrefix ++ "__c_" } asked).1 := by
  obtain ⟨slots, r, done, hdone, hmachine, -, -⟩ := assembled_of_ofGraph hok
  obtain ⟨_, _, hrest⟩ := ok_of_bind hdone
  obtain ⟨_, _, hrest⟩ := ok_of_bind hrest
  obtain ⟨spans, _, hrun⟩ := ok_of_bind hrest
  have hsupplied : Assembly.Supplied symbolPrefix done :=
    ((Assembly.supplied_stable symbolPrefix).assemble root _
      (Assembly.supplied_start _ _)).1 _ _
      hrun
  obtain ⟨asked, hasked⟩ := hsupplied.codes
  have honward :=
    Machine.onward_skipForwarding done.machine r (done.machine.enumerate r)
  rw [← hmachine] at honward
  have hcodes : parser.machine.intrinsics = done.machine.intrinsics := by
    unfold Machine.intrinsics
    rw [honward.codes]
  rw [honward.map_states fun s => (honward.states s).name,
    honward.map_states fun s => (honward.states s).nodeName,
      hsupplied.states, hcodes]
  exact ⟨rfl, asked, by rw [hasked]⟩

/-- The names of the parser of a graph. -/
theorem named_of_ofGraph
    (hok : ofGraph g root symbolPrefix options = .ok parser) :
    parser.machine.Named symbolPrefix
        ∧ parser.symbolPrefix = symbolPrefix := by
  refine ⟨?_, ?_⟩
  · obtain ⟨hstates, asked, hcodes⟩ := supplied_of_ofGraph hok
    refine Machine.named_of_unique
      (parser.machine.states.toList.map (·.nodeName)) asked ?_ ?_
    · rw [hstates]
      exact NameSupply.unique_handOut _ _
    · rw [hcodes]
      exact NameSupply.unique_handOut _ _
  · obtain ⟨_, _, hrest⟩ := ok_of_bind hok
    obtain rfl := Except.ok.inj hrest
    rfl

/-- Asking a supply for a name ends, after one try more than there are names
taken at most. What it hands out under a stem are the first forms of the names
that no name before has. The states of every parser are named so, for the names
of their nodes, which stand unchanged beside them; and so are its
intrinsics. -/
theorem names_unique :
    (∀ (supply : NameSupply) name bound, supply.used.size < bound →
      NameSupply.seek supply.used (supply.base name) bound 0
        = some (supply.alloc name).1)
    ∧ (∀ stem names, NameSupply.Unique stem names
      (NameSupply.handOut { stem } names).1)
    ∧ ∀ {g root symbolPrefix options parser},
      ofGraph g root symbolPrefix options = .ok parser →
        parser.machine.states.toList.map (·.name)
          = (NameSupply.handOut { stem := symbolPrefix ++ "__n_" }
            (parser.machine.states.toList.map (·.nodeName))).1
        ∧ ∃ asked, parser.machine.intrinsics.map (·.name)
          = (NameSupply.handOut { stem := symbolPrefix ++ "__c_" } asked).1 :=
  ⟨fun supply name _ hbound => supply.seek_alloc name hbound,
    NameSupply.unique_handOut,
    supplied_of_ofGraph⟩

/-- Two nodes that read by turns. -/
def turns : Graph :=
  Build.replay [.node "on-data", .node "on-end", .skipTo 0 1, .skipTo 1 0] {}

/-- The parser of the turns. -/
def turnsParser : Parser where
  symbolPrefix := "p"
  machine.states := #[
    { name := "p__n_on_data", nodeName := "on-data", kind := .empty
      otherwise := some (.otherwise 1 false) },
    { name := "p__n_on_end", nodeName := "on-end", kind := .empty
      otherwise := some (.otherwise 0 false) }]
  root := 0
  resumable := [0, 1]

theorem ofGraph_turns : ofGraph turns 0 "p" {} = .ok turnsParser := by
  cbv

/-- The nodes of the turns get names of their own. Were they the same for an
identifier, the second would get a number. -/
theorem names_unique_turns :
    (NameSupply.handOut { stem := "p__n_" } ["on-data", "on-end"]).1
      = ["p__n_on_data", "p__n_on_end"]
    ∧ NameSupply.Unique "p__n_" ["on-data", "on_data"]
        ["p__n_on_data", "p__n_on_data_1"] := by
  obtain ⟨-, hunique, hparser⟩ := names_unique
  refine ⟨(hparser ofGraph_turns).1.symm, ?_⟩
  have hbase : ∀ used, NameSupply.base { stem := "p__n_", used } "on-data"
      = "p__n_on_data"
      ∧ NameSupply.base { stem := "p__n_", used } "on_data" = "p__n_on_data" :=
    fun used => ⟨by cbv, by cbv⟩
  have hgiven :
      (NameSupply.handOut { stem := "p__n_" } ["on-data", "on_data"]).1
      = ["p__n_on_data", "p__n_on_data_1"] := by
    simp [NameSupply.handOut, NameSupply.alloc, hbase, NameSupply.seek,
      NameSupply.numbered,
      Std.HashSet.size_insert, show Nat.repr 1 = "1" from rfl]
  rw [← hgiven]
  exact hunique "p__n_" ["on-data", "on_data"]

end Parser

end Bytewise

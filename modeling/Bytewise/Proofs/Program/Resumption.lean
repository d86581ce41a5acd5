/-
Where calls go on.

A call ends in a state, which the program returns or stores, and the next
call begins there: so that state must have a case in the dispatch of the
run function. Which states these are is settled twice, by the parser from
the kinds of its states (`Machine.resumeTargets`) and by the bodies, which
wait and store where they have to. Body by body, what is stored is what was
foreseen (`kindBody_fits`), and all that a body goes on to is a state of
the program, with one label and one entry in the enumeration.
-/
import Bytewise.Proofs.Program.LabelLines

namespace Bytewise

namespace Program

-- ======================================================== named states

/-- Where the statement may leave the parser to go on: what it returns or
stores. -/
def Stmt.leaves : Stmt → List Label
  | .waitForInput own => [.state own]
  | .leave label => [label]
  | .setCurrent label => [label]
  | .onOutcome own _ _ => [.state own]
  | .onSpanError _ resume => [.state resume, .error]
  | _ => []

/-- Where the statement may go on at once. -/
def Stmt.jumps : Stmt → List StateId
  | .jump next => [next.target]
  | .call _ _ cases default => default.target :: cases.map (·.2.target)
  | .onOutcome _ complete mismatch => [complete.target, mismatch.target]
  | .onByte _ cases default => default.target :: cases.map (·.2.target)
  | .skipRanges own _ default => [own, default.target]
  | .onEntry _ cases default => default.target :: cases.map (·.target)
  | .skipAll _ next => [next.target]
  | _ => []

variable {program program' : Program}

variable {parser : Parser} {s t : StateId} {state : Machine.State}
  {edge : Machine.Edge}

/-- The otherwise edge leads to a target. -/
theorem mem_targets_of_otherwise (h : state.otherwise = some edge) :
    edge.target ∈ state.targets :=
  List.mem_map_of_mem (List.mem_append_right _ (Option.mem_toList.mpr h))

theorem mem_targets_of_edges (h : edge ∈ state.edges) :
    edge.target ∈ state.targets :=
  List.mem_map_of_mem (List.mem_append_left _ h)

/-- A statement of a state leaves the parser where the machine foresees it, and
goes on in that state or where an edge of it leads. -/
structure Stmt.Fits (m : Machine) (s : StateId) (stmt : Stmt) : Prop where
  leaves : ∀ t, .state t ∈ stmt.leaves → t ∈ m.resumeTargets s
  jumps : ∀ t ∈ stmt.jumps, t = s ∨ t ∈ (m.state s).targets

/-- To fit is to leave and to jump where it is foreseen. -/
theorem Stmt.fits_iff {m : Machine} {stmt : Stmt} : stmt.Fits m s
    ↔ (∀ t, .state t ∈ stmt.leaves → t ∈ m.resumeTargets s)
      ∧ ∀ t ∈ stmt.jumps, t = s ∨ t ∈ (m.state s).targets :=
  ⟨fun h => ⟨h.leaves, h.jumps⟩, fun h => ⟨h.1, h.2⟩⟩

/-- The cases that a body has for the edges of its state lead where the edges
do. -/
theorem CasesOf.targets {α : Type} {key : α → Machine.Key}
    {cases : List (α × Jump)} (h : CasesOf key state.edges cases)
    (hother : t ∈ state.targets) :
    ∀ u ∈ t :: cases.map (·.2.target), u = s ∨ u ∈ state.targets := by
  intro u hu
  rcases List.mem_cons.mp hu with rfl | hu
  · exact Or.inr hother
  · obtain ⟨x, hx, rfl⟩ := List.mem_map.mp hu
    obtain ⟨e, he, -, hjump⟩ := exists_of_mem_right h hx
    rw [hjump]
    exact Or.inr (mem_targets_of_edges he)

section bodies

variable {body : List Stmt}

/-- Skipping by vector comes back to the state, or leaves by its otherwise
edge. -/
theorem vectorSkip_fits
    (htarget : edge.target ∈ (parser.machine.state s).targets) :
    ∀ stmt ∈ vectorSkip s (parser.machine.state s) edge,
        stmt.Fits parser.machine s := by
  unfold vectorSkip
  split
  · split
    · dsimp only
      split
        <;> simp [Stmt.fits_iff, Stmt.leaves, Stmt.jumps, takeEdge, htarget]
    · simp
  · simp

/-- Looking a byte up leads where an edge of the state does. -/
theorem onEntry_fits
    (htarget : edge.target ∈ (parser.machine.state s).targets) :
    (Stmt.onEntry (parser.machine.state s).effectiveTransform
      ((parser.machine.state s).edges.map takeEdge)
          (takeEdge edge)).Fits parser.machine s := by
  refine ⟨by simp [Stmt.leaves], fun t ht => Or.inr ?_⟩
  rcases List.mem_cons.mp ht with rfl | ht
  · exact htarget
  · obtain ⟨jump, hjump, rfl⟩ := List.mem_map.mp ht
    obtain ⟨e, he, rfl⟩ := List.mem_map.mp hjump
    exact mem_targets_of_edges he

/-- A body waits where the state is foreseen, if the edge is going to consume a
byte. -/
theorem waitIfConsuming_fits
    (hown : edge.noAdvance = false → s ∈ parser.machine.resumeTargets s) :
    ∀ stmt ∈ waitIfConsuming s edge, stmt.Fits parser.machine s := by
  unfold waitIfConsuming
  split
  · simp
  · rename_i hconsumes
    simp [Stmt.fits_iff, Stmt.leaves, Stmt.jumps,
      hown (eq_false_of_ne_true hconsumes)]

/-- Kinds whose bodies wait for input in the state itself. -/
def WaitsHere : Machine.StateKind → Prop
  | .consume _ | .empty | .sequence | .single | .table | .spanStart .. => True
  | _ => False

/-- A state that waits in itself may be resumed. -/
theorem mem_resumeTargets_of_waitsHere {m : Machine}
    (h : WaitsHere (m.state s).kind) :
    s ∈ m.resumeTargets s := by
  cases hkind : (m.state s).kind with
  | error | pause | invoke | spanEnd =>
      rw [hkind] at h
      exact False.elim h
  | _ => simp [Machine.resumeTargets, hkind]

/-- The statements of a body fit its state. -/
theorem kindBody_fits
    (h : kindBody parser s (parser.machine.state s) = .ok body) :
    ∀ stmt ∈ body, stmt.Fits parser.machine s := by
  have hbody := bodyOf_of_kindBody h
  have hown : WaitsHere (parser.machine.state s).kind →
      s ∈ parser.machine.resumeTargets s :=
    mem_resumeTargets_of_waitsHere
  generalize hkind : (parser.machine.state s).kind = kind at hbody hown
  cases hbody with
  | consume found integer next =>
      simp [Stmt.fits_iff, Stmt.leaves, Stmt.jumps, takeEdge,
        mem_targets_of_otherwise next,
        hown trivial]
  | empty next =>
      refine List.forall_mem_append.mpr
        ⟨waitIfConsuming_fits fun _ => hown trivial, ?_⟩
      simp [Stmt.fits_iff, Stmt.leaves, Stmt.jumps, takeEdge,
        mem_targets_of_otherwise next]
  | error => simp [Stmt.fits_iff, Stmt.leaves, Stmt.jumps]
  | @pause _ _ otherwise next =>
      have hnext : otherwise.target ∈ parser.machine.resumeTargets s := by
        simp [Machine.resumeTargets, hkind, next]
      simp [Stmt.fits_iff, Stmt.leaves, Stmt.jumps, hnext]
  | invoke next checked keys =>
      exact List.forall_mem_singleton.mpr
        ⟨by simp [Stmt.leaves], keys.targets (mem_targets_of_otherwise next)⟩
  | sequence next first key =>
      have hfirst := mem_targets_of_edges (first ▸ List.mem_cons_self)
      simp [Stmt.fits_iff, Stmt.leaves, Stmt.jumps, takeEdge,
        mem_targets_of_otherwise next,
        hfirst, hown trivial]
  | single next keys =>
      refine List.forall_mem_cons.mpr ⟨?_, List.forall_mem_singleton.mpr
        ⟨by simp [Stmt.leaves], keys.targets (mem_targets_of_otherwise next)⟩⟩
      simp [Stmt.fits_iff, Stmt.leaves, Stmt.jumps, hown trivial]
  | table next keys =>
      have htarget := mem_targets_of_otherwise next
      refine List.forall_mem_append.mpr ⟨List.forall_mem_append.mpr
        ⟨?_, vectorSkip_fits htarget⟩,
          List.forall_mem_singleton.mpr (onEntry_fits htarget)⟩
      simp [Stmt.fits_iff, Stmt.leaves, Stmt.jumps, hown trivial]
  | spanStart next alone | sharedStart next shared checked =>
      simp [Stmt.fits_iff, Stmt.leaves, Stmt.jumps, takePlain,
        mem_targets_of_otherwise next,
        hown trivial]
  | @spanEnd _ _ otherwise next checked =>
      have hnext : otherwise.target ∈ parser.machine.resumeTargets s := by
        simp only [Machine.resumeTargets, hkind, next]
        split <;> simp
      refine List.forall_mem_append.mpr
        ⟨waitIfConsuming_fits fun hconsumes => ?_, ?_⟩
      · simp [Machine.resumeTargets, hkind, next, hconsumes]
      · simp [Stmt.fits_iff, Stmt.leaves, Stmt.jumps, takePlain,
          mem_targets_of_otherwise next,
          hnext]

end bodies

-- ============================================================= programs

/-- What a state of the program is, and that its statements fit. -/
theorem stateOf_fits {debugHook : Option String} {made : State}
    (h : stateOf parser debugHook s = .ok made) :
    made.id = s ∧ made.resumable = parser.resumable.contains s
      ∧ ∀ stmt ∈ made.body, stmt.Fits parser.machine s := by
  obtain ⟨body, hbody, hrest⟩ := ok_of_bind h
  obtain rfl := Except.ok.inj hrest
  refine ⟨rfl, rfl, List.forall_mem_append.mpr
    ⟨fun stmt hstmt => ?_, kindBody_fits hbody⟩⟩
  obtain ⟨hook, _, rfl⟩ := List.mem_map.mp hstmt
  simp [Stmt.fits_iff, Stmt.leaves, Stmt.jumps]

/-- A call can end with the next one to begin at the label. -/
inductive Leaves (program : Program) : Label → Prop where
  | root : Leaves program (.state program.root)
  | body {made : State} {stmt : Stmt} {label : Label}
      (there : made ∈ program.states)
      (said : stmt ∈ made.body) (left : label ∈ stmt.leaves) : Leaves
        program label

/-- The program names the state, as one to go on in. -/
inductive Names (program : Program) : StateId → Prop where
  | left {s : StateId} (left : program.Leaves (.state s)) : Names program s
  | jump {made : State} {stmt : Stmt} {s : StateId}
      (there : made ∈ program.states)
      (said : stmt ∈ made.body) (next : s ∈ stmt.jumps) : Names program s

end Program

namespace Parser

variable {parser : Parser} {s t : StateId}

/-- The targets of live states are live. -/
theorem WellFormed.live_of_target (h : parser.WellFormed)
    (hs : s ∈ parser.liveStates)
    (ht : t ∈ (parser.machine.state s).targets) : t ∈ parser.liveStates := by
  obtain ⟨edge, hedge, rfl⟩ := List.mem_map.mp ht
  exact mem_liveStates.mpr
    ((mem_liveStates.mp hs).tail ⟨ht, (h.states s hs).targets edge hedge⟩)

end Parser

namespace Program

variable {parser : Parser} {program program' : Program}
  {debugHook headerName : Option String} {s t : StateId} {made : State}

/-- The states of a program stand in the order of emission. -/
theorem ids_of_ofParser
    (hok : ofParser parser debugHook headerName = .ok program) :
    program.states.map (·.id) = emissionOrder parser := by
  have hall := (states_of_ofParser hok).1
  generalize emissionOrder parser = order at hall
  generalize program.states = states at hall
  induction hall with
  | nil => rfl
  | cons hmade _ ih => rw [List.map_cons, ih, (stateOf_fits hmade).1]

/-- A label tells the name of its state. -/
theorem stateLabel_inj (h : program.stateLabel s = program.stateLabel t) :
    program.stateNames.getD s "" = program.stateNames.getD t "" := by
  unfold stateLabel at h
  simpa using h

/-- States keep the names that the machine has for them. -/
theorem stateName_eq (hok : ofParser parser debugHook headerName = .ok program)
    (hs : s < parser.machine.size) :
    program.stateNames.getD s "" = (parser.machine.state s).name := by
  rw [(states_of_ofParser hok).2.2]
  have hs' : s < parser.machine.states.size := hs
  simp [Machine.state, Array.getD, hs']

/-- The states of a program have labels of their own. -/
theorem nodup_labels (hwell : parser.WellFormed)
    (hok : ofParser parser debugHook headerName = .ok program) :
    (program.states.map fun made => program.stateLabel made.id).Nodup := by
  have hlabels : (program.states.map fun made => program.stateLabel made.id)
      = (emissionOrder parser).map program.stateLabel := by
    rw [← ids_of_ofParser hok, List.map_map]
    rfl
  rw [hlabels]
  refine List.Nodup.map_on (fun s hs t ht hsame => ?_)
    parser.nodup_emissionOrder
  rw [hwell.mem_emissionOrder] at hs ht
  have hnames := stateLabel_inj hsame
  rw [stateName_eq hok (hwell.states s hs).inside, stateName_eq hok
    (hwell.states t ht).inside]
    at hnames
  exact hwell.names s hs t ht hnames

end Program

end Bytewise

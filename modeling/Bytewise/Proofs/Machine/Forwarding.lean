/-
What the removal of forwarding states keeps.

Edges are redirected one step at a time, in whatever order: what one step
keeps, `skipForwarding` keeps (`skipForwarding_keeps`). No round has to be
looked at again, and none of them needs to be the last. A round looks at
states that the one before it was given, so that is enough to be said of
the states listed (`skipForwarding_keepsAt`).
-/
import Bytewise.Machine.Forwarding
import Bytewise.Proofs.List

namespace Bytewise.Machine

variable {m : Machine} {P : Machine → Prop} {id next : StateId} {index : Nat}
  {ids : List StateId}

-- ============================================================== states

/-- Outside the machine there is no state to be found. -/
theorem state_of_ge {s : StateId} (hs : m.size ≤ s) : m.state s = default := by
  have hs' : ¬ s < m.states.size := Nat.not_lt.mpr hs
  simp [Machine.state, Array.getD, hs']

/-- Only states of the machine have edges. -/
theorem lt_of_mem_allEdges {s : StateId} {edge : Edge}
    (hedge : edge ∈ (m.state s).allEdges) : s < m.size := by
  refine Nat.not_le.mp fun hge => ?_
  rw [state_of_ge hge] at hedge
  exact List.not_mem_nil hedge

theorem state_modify {s : StateId} (hs : s < m.size) (i : StateId)
    (change : State → State) :
    (m.modifyState i change).state s = if i = s then
        change (m.state s) else m.state s := by
  have hs' : s < m.states.size := hs
  simp [Machine.state, Machine.modifyState, Array.getD, hs',
    Array.getElem_modify]

theorem size_modify (m : Machine) (i : StateId) (change : State → State) :
    (m.modifyState i change).size = m.size := by
  simp [Machine.size, Machine.modifyState]

/-- The states before a new one stay as they are. -/
theorem state_push_of_lt {s : StateId} (hs : s < m.size) (state : State) :
    ({ m with states := m.states.push state } : Machine).state s
        = m.state s := by
  have hs' : s < m.states.size := hs
  simp [Machine.state, Array.getD, hs', Nat.lt_succ_of_lt hs',
    Array.getElem_push_lt hs']

theorem state_push_size (m : Machine) (state : State) :
    ({ m with states := m.states.push state } : Machine).state m.size
        = state := by
  simp [Machine.state, Machine.size]

/-- An edge that is led elsewhere is one of one state. -/
theorem state_retarget (hid : id < m.size) (s : StateId) :
    (m.retarget id index next).state s
      = if id = s then (m.state id).retarget index next else m.state s := by
  by_cases hs : s < m.size
  · unfold retarget
    rw [state_modify hs]
    by_cases hsame : id = s
    · subst hsame
      rw [if_pos rfl]
    · rw [if_neg hsame, if_neg hsame]
  · have hne : id ≠ s := fun hsame => hs (hsame ▸ hid)
    have hge : m.size ≤ s := Nat.not_lt.mp hs
    rw [if_neg hne, state_of_ge hge, state_of_ge]
    rw [retarget, size_modify]
    exact hge

/-- The codes before a new one stay as they are. -/
theorem code_push_of_lt {c : CodeId} (hc : c < m.codes.size) (code : Code) :
    ({ m with codes := m.codes.push code } : Machine).code c = m.code c := by
  simp [Machine.code, Array.getD, hc, Nat.lt_succ_of_lt hc,
    Array.getElem_push_lt hc]

theorem code_push_size (m : Machine) (code : Code) :
    ({ m with codes := m.codes.push code } : Machine).code m.codes.size
        = code := by
  simp [Machine.code]

/-- Of all edges of a state, the one in its place is led elsewhere. -/
theorem State.allEdges_retarget {state : State}
    (h : index < state.allEdges.length) :
    (state.retarget index next).allEdges
      = state.allEdges.modify index ({ · with target := next }) := by
  obtain ⟨name, nodeName, kind, transform, edges, otherwise⟩ := state
  unfold State.retarget State.allEdges at *
  dsimp only at h ⊢
  split
  · rename_i hlt
    refine List.ext_getElem? fun j => ?_
    rw [List.getElem?_modify, List.getElem?_append, List.getElem?_append,
      List.length_modify,
      List.getElem?_modify]
    by_cases hj : j < edges.length
    · rw [if_pos hj, if_pos hj]
    · have hne : index ≠ j := by omega
      simp [hj, hne]
  · rename_i hge
    cases otherwise with
    | none => simp [hge] at h
    | some edge =>
        have hindex : index = edges.length := by
          simp at h
          omega
        subst hindex
        simp [List.modify_eq_take_drop]

-- ========================================================= redirections

/-- All the state does is to pass on along the edge. -/
structure State.PassesAlong (state : State) (edge : Edge) : Prop where
  kind : state.kind = .empty
  edges : state.edges = []
  otherwise : state.otherwise = some edge
  stays : edge.noAdvance = true
  value : edge.value = none

/-- The edge that a state passes along is its only one. -/
theorem State.PassesAlong.allEdges {state : State} {edge : Edge}
    (h : state.PassesAlong edge) :
    state.allEdges = [edge] := by
  rw [State.allEdges, h.edges, h.otherwise]
  rfl

/-- The edge that a state passes along is its own. -/
theorem State.PassesAlong.mem_allEdges {state : State} {edge : Edge}
    (h : state.PassesAlong edge) :
    edge ∈ state.allEdges := by
  rw [h.allEdges]
  exact List.mem_cons_self

/-- The state passes on to the other. -/
def Passes (m : Machine) (id next : StateId) : Prop :=
  ∃ edge, (m.state id).PassesAlong edge ∧ edge.target = next

/-- The state passes on to another one. -/
def Forwards (m : Machine) (id next : StateId) : Prop :=
  m.Passes id next ∧ next ≠ id

/-- Only states of the machine pass along. -/
theorem Passes.lt (h : m.Passes id next) : id < m.size := by
  obtain ⟨edge, hpasses, _⟩ := h
  exact lt_of_mem_allEdges hpasses.mem_allEdges

/-- Edges are redirected past the states that pass on to others. -/
theorem forwardTarget_iff : m.forwardTarget? id = some next
    ↔ m.Forwards id next := by
  constructor
  · intro h
    unfold forwardTarget? at h
    dsimp only at h
    split at h
    · rename_i hempty
      obtain ⟨hkind, hedges⟩ := Bool.and_eq_true_iff.mp hempty
      split at h
      · rename_i edge hother
        split at h
        · rename_i hpasses
          obtain ⟨hboth, hne⟩ := Bool.and_eq_true_iff.mp hpasses
          obtain ⟨hstays, hvalue⟩ := Bool.and_eq_true_iff.mp hboth
          obtain rfl := Option.some.inj h
          exact ⟨⟨edge,
            ⟨beq_iff_eq.mp hkind, List.isEmpty_iff.mp hedges, hother, hstays,
            Option.isNone_iff_eq_none.mp hvalue⟩, rfl⟩, bne_iff_ne.mp hne⟩
        · cases h
      · cases h
    · cases h
  · rintro ⟨⟨edge, hpasses, rfl⟩, hne⟩
    unfold forwardTarget?
    simp [hpasses.kind, hpasses.edges, hpasses.otherwise, hpasses.stays,
      hpasses.value, hne]

/-- What is found as the next state of a forwarding one is next. -/
theorem passes_of_forwardTarget (h : m.forwardTarget? id = some next) :
    m.Passes id next :=
  (forwardTarget_iff.mp h).1

/-- A state that edges are redirected past. -/
def Forwarding (m : Machine) (id : StateId) : Prop :=
  ∃ next, m.Forwards id next

/-- None is found just where the state does not forward. -/
theorem forwardTarget_eq_none : m.forwardTarget? id = none
    ↔ ¬ m.Forwarding id := by
  rw [Option.eq_none_iff_forall_ne_some]
  exact ⟨fun h ⟨next, hnext⟩ => h next (forwardTarget_iff.mpr hnext),
    fun h next hnext => h ⟨next, forwardTarget_iff.mp hnext⟩⟩

/-- One redirection of an edge of the state keeps it: an edge into a state that
passes on to another leads where that state does. -/
def KeepsAt (id : StateId) (P : Machine → Prop) : Prop :=
  ∀ (m : Machine) (index : Nat) (edge : Edge) (next : StateId), P m →
    (m.state id).allEdges[index]? = some edge → m.forwardTarget? edge.target
      = some next → P (m.retarget id index next)

/-- One redirection keeps it, of whatever state. -/
def Keeps (P : Machine → Prop) : Prop :=
  ∀ (m : Machine) (id : StateId) (index : Nat) (edge : Edge) (next : StateId),
    P m →
    (m.state id).allEdges[index]? = some edge → m.forwardTarget? edge.target
      = some next → P (m.retarget id index next)

/-- What all redirections keep, those at one state do. -/
theorem Keeps.keepsAt (hP : Keeps P) (id : StateId) : KeepsAt id P :=
  fun m => hP m id

/-- What redirections at a state keep, its own turn keeps. -/
theorem KeepsAt.redirect (hP : KeepsAt id P) (h : P m) :
    P (m.redirect id).1 := by
  unfold Machine.redirect
  refine List.foldlRecOn (motive := fun state : Machine × Bool => P state.1) _
    _ h ?_
  intro pair h index _
  obtain ⟨m, changed⟩ := pair
  dsimp only
  split
  · exact h
  · rename_i edge hedge
    split
    · rename_i next hnext
      exact hP m index edge next h hedge hnext
    · exact h

/-- A round keeps what its states do, and notes none but them. -/
theorem redirectAll_keeps (hP : ∀ id ∈ ids, KeepsAt id P) (h : P m) :
    P (m.redirectAll ids).1 ∧ (m.redirectAll ids).2 ⊆ ids := by
  unfold Machine.redirectAll
  refine List.foldlRecOn (motive := fun state : Machine × List StateId =>
    P state.1 ∧ state.2 ⊆ ids)
    _ _ ⟨h, List.nil_subset ids⟩ ?_
  rintro ⟨m, changed⟩ ⟨h, hchanged⟩ id hid
  refine ⟨(hP id hid).redirect h, ?_⟩
  dsimp only
  split
  · exact List.append_subset.mpr
      ⟨hchanged, fun s hs => List.mem_singleton.mp hs ▸ hid⟩
  · exact hchanged

/-- Turns of all states keep it too. -/
theorem Keeps.redirectAll (hP : Keeps P) (h : P m) (ids : List StateId) :
    P (m.redirectAll ids).1 :=
  (redirectAll_keeps (fun id _ => hP.keepsAt id) h).1

theorem redirectRounds_keeps (rounds : Nat) (hP : ∀ id ∈ ids, KeepsAt id P)
    (h : P m) :
    P (redirectRounds rounds m ids) := by
  induction rounds generalizing m ids with
  | zero => exact h
  | succ rounds ih =>
      cases ids with
      | nil => exact h
      | cons id ids =>
          obtain ⟨hround, hnoted⟩ := redirectAll_keeps hP h
          exact ih (fun s hs => hP s (hnoted hs)) hround

/-- Where a root is moved to by forwarding steps. -/
theorem forwardRoot_keeps {Q : StateId → Prop} (steps : Nat) {root : StateId}
    (h : Q root)
    (hQ : ∀ id next, Q id → m.forwardTarget? id = some next → Q next) :
    Q (m.forwardRoot steps root) := by
  induction steps generalizing root with
  | zero => exact h
  | succ steps ih =>
      unfold forwardRoot
      split
      · rename_i next hnext
        exact ih (hQ root next h hnext)
      · exact h

/-- Putting states in order loses none and adds none. -/
theorem mem_ascending {s : StateId} : s ∈ ascending ids ↔ s ∈ ids :=
  mem_eraseReps.trans List.mem_mergeSort

/-- What one redirection of the root or of a listed state keeps, skipping
forwarding states keeps. -/
theorem skipForwarding_keepsAt {root : StateId}
    (hP : ∀ id ∈ root :: ids, KeepsAt id P)
    (h : P m) : P (m.skipForwarding root ids).1 :=
  redirectRounds_keeps _ (fun id hid => hP id (mem_ascending.mp hid)) h

/-- What one redirection keeps, skipping forwarding states keeps. -/
theorem skipForwarding_keeps (hP : Keeps P) (h : P m) (root : StateId)
    (ids : List StateId) :
    P (m.skipForwarding root ids).1 :=
  skipForwarding_keepsAt (fun id _ => hP.keepsAt id) h

end Bytewise.Machine

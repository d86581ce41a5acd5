/-
Where the removal of forwarding states ends.

A redirection moves an edge from one forwarding state to the next, so it
gets nowhere if forwarding states lead around. If they do not, each has a
rank, the number of forwarding states from it on (`exists_rank`), and a
round of redirections lowers the rank of every target it looks at; a state
that a round leaves as it is has no edge into a forwarding state. There are
more rounds than states, so in the end no state that was listed has one
(`Course.settled_skipForwarding`). A state that passes on to itself is not
redirected past; where none does, no live state is idle at all
(`not_idle_of_skipForwarding`).
-/
import Mathlib.Data.List.Induction
import Bytewise.Machine.Walk
import Bytewise.Proofs.Exploration
import Bytewise.Proofs.List
import Bytewise.Proofs.Machine.Onward

namespace Bytewise.Machine

-- ==================================================== forwarding states

/-- The state passes on, to whatever state. -/
def Idle (m : Machine) (id : StateId) : Prop :=
  ∃ edge, (m.state id).PassesAlong edge

/-- Forwarding states lead to states of lower rank. -/
def Ranked (m : Machine) (rank : StateId → Nat) : Prop :=
  ∀ id next, m.Forwards id next → rank next < rank id

variable {m : Machine} {rank : StateId → Nat} {id next : StateId} {index : Nat}

/-- A state passes along to one state. -/
theorem Passes.unique {other : StateId} (h : m.Passes id next)
    (h' : m.Passes id other) :
    next = other := by
  obtain ⟨edge, hpasses, rfl⟩ := h
  obtain ⟨edge', hpasses', rfl⟩ := h'
  rw [Option.some.inj (hpasses.otherwise.symm.trans hpasses'.otherwise)]

/-- Where forwarding states do not lead around, the number of them from each on
is a rank. -/
theorem exists_rank (h : ∀ id, ¬ Relation.TransGen m.Forwards id id) :
    ∃ rank, m.Ranked rank ∧ ∀ id, rank id ≤ m.size := by
  classical
  refine ⟨fun id => (List.range m.size).countP fun x =>
    decide (m.Forwarding x ∧ Relation.ReflTransGen m.Forwards id x),
      fun id next hstep => ?_,
    fun id => ?_⟩
  · refine countP_lt (fun x _ hx => ?_) (List.mem_range.mpr hstep.1.lt) ?_ ?_
    · obtain ⟨hforwarding, hreach⟩ := of_decide_eq_true hx
      exact decide_eq_true ⟨hforwarding, hreach.head hstep⟩
    · exact decide_eq_false fun hid =>
        h id (Relation.TransGen.head' hstep hid.2)
    · exact decide_eq_true ⟨⟨next, hstep⟩, .refl⟩
  · refine Nat.le_trans List.countP_le_length ?_
    exact Nat.le_of_eq List.length_range

-- ======================================================= one redirection

/-- A state that passes on still does so with its edge redirected. -/
theorem State.passesAlong_retarget {state : State} {after : Edge} :
    (state.retarget index next).PassesAlong after
      ↔ ∃ before, state.PassesAlong before
          ∧ after = { before with target := next } := by
  unfold State.retarget
  split
  · rename_i hlt
    have hne : state.edges ≠ [] :=
      List.ne_nil_of_length_pos (Nat.zero_lt_of_lt hlt)
    constructor
    · intro h
      exact absurd (List.modify_eq_nil_iff.mp h.edges) hne
    · rintro ⟨before, h, _⟩
      exact absurd h.edges hne
  · constructor
    · rintro ⟨hkind, hedges, hother, hstays, hvalue⟩
      obtain ⟨before, hbefore, rfl⟩ := Option.map_eq_some_iff.mp hother
      exact ⟨before, ⟨hkind, hedges, hbefore, hstays, hvalue⟩, rfl⟩
    · rintro ⟨before, ⟨hkind, hedges, hother, hstays, hvalue⟩, rfl⟩
      exact ⟨hkind, hedges, by simp [hother], hstays, hvalue⟩

/-- Where a redirection is about the only edge of a forwarding state, that
state leads on further, and all others lead where they did. -/
theorem Ranked.forwards_retarget {edge : Edge} {s t : StateId}
    (h : m.Ranked rank) (hedge : (m.state id).allEdges[index]? = some edge)
    (hnext : m.Forwards edge.target next) :
    (m.retarget id index next).Forwards s t
      ↔ if id = s then t = next
          ∧ m.Forwards id edge.target else m.Forwards s t := by
  have hmem := List.mem_of_getElem? hedge
  have hid : id < m.size := lt_of_mem_allEdges hmem
  unfold Forwards Passes
  rw [state_retarget hid]
  split
  · rename_i hsame
    subst hsame
    constructor
    · rintro ⟨⟨after, hafter, rfl⟩, hne⟩
      obtain ⟨before, hbefore, rfl⟩ := State.passesAlong_retarget.mp hafter
      rw [hbefore.allEdges, List.mem_singleton] at hmem
      subst hmem
      refine ⟨rfl, ⟨edge, hbefore, rfl⟩, fun hself => hne ?_⟩
      -- a state that passes on to itself is not redirected past
      rw [hself] at hnext
      exact (hnext.1.unique ⟨edge, hbefore, rfl⟩).trans hself
    · rintro ⟨rfl, ⟨before, hbefore, hsame⟩, hne⟩
      refine ⟨⟨_, State.passesAlong_retarget.mpr ⟨before, hbefore, rfl⟩, rfl⟩,
        fun hself => ?_⟩
      have hfirst := h id edge.target ⟨⟨before, hbefore, hsame⟩, hne⟩
      have hsecond := h edge.target t hnext
      rw [hself] at hsecond
      omega
  · exact Iff.rfl

/-- What redirections leave as it is: which states forward, that ranks fall
along them, and a set of states that no edge leaves. -/
structure Course (rank : StateId → Nat) (forwarding within : StateId → Prop)
    (n : Nat) (m : Machine) : Prop where
  size : m.size = n
  ranked : m.Ranked rank
  forwarding : ∀ id, m.Forwarding id ↔ forwarding id
  closed : ∀ id, within id → ∀ edge ∈ (m.state id).allEdges, edge.target < n →
    within edge.target

theorem keeps_course {forwarding within : StateId → Prop} {n : Nat} :
    Keeps (Course rank forwarding within n) := by
  intro m id index edge next h hedge hnext
  have hmem := List.mem_of_getElem? hedge
  have hid : id < m.size := lt_of_mem_allEdges hmem
  have hstep := forwardTarget_iff.mp hnext
  have hforwards : ∀ {s t}, (m.retarget id index next).Forwards s t
      ↔ if id = s then t = next
          ∧ m.Forwards id edge.target else m.Forwards s t :=
    h.ranked.forwards_retarget hedge hstep
  refine ⟨(size_modify m id _).trans h.size, fun s t hafter => ?_, fun s => ?_,
    fun s hs e he hlt => ?_⟩
  · rw [hforwards] at hafter
    split at hafter
    · rename_i hsame
      obtain ⟨rfl, hbefore⟩ := hafter
      exact hsame ▸ Nat.lt_trans (h.ranked _ _ hstep) (h.ranked _ _ hbefore)
    · exact h.ranked s t hafter
  · rw [← h.forwarding s]
    unfold Forwarding
    simp only [hforwards]
    split
    · rename_i hsame
      subst hsame
      constructor
      · rintro ⟨_, _, hbefore⟩
        exact ⟨edge.target, hbefore⟩
      · rintro ⟨t, hbefore⟩
        -- the one edge of a forwarding state is the one that is redirected
        have hforward := hbefore
        obtain ⟨⟨before, hpasses, rfl⟩, _⟩ := hforward
        rw [hpasses.allEdges, List.mem_singleton] at hmem
        exact ⟨next, rfl, hmem ▸ hbefore⟩
    · exact Iff.rfl
  · rw [state_retarget hid] at he
    split at he
    · rename_i hsame
      subst hsame
      rw [State.allEdges_retarget (List.getElem?_eq_some_iff.mp hedge).1] at he
      rcases mem_modify hedge he with he | rfl
      · exact h.closed id hs e he hlt
      · obtain ⟨⟨onward, honward, rfl⟩, _⟩ := hstep
        have hthere : edge.target < m.size :=
          lt_of_mem_allEdges honward.mem_allEdges
        have hwithin := h.closed id hs edge hmem (h.size ▸ hthere)
        exact h.closed _ hwithin onward honward.mem_allEdges hlt
    · exact h.closed s hs e he hlt

-- =============================================================== rounds

/-- Edges of the state that enter a forwarding state enter one of at most this
rank. -/
def Bounded (m : Machine) (rank : StateId → Nat) (forwarding : StateId → Prop)
    (bound : Nat) (id : StateId) : Prop :=
  ∀ edge ∈ (m.state id).allEdges, forwarding edge.target →
    rank edge.target ≤ bound

/-- No edge of the state enters a forwarding state. -/
def Settled (m : Machine) (forwarding : StateId → Prop) (id : StateId) :
    Prop :=
  ∀ edge ∈ (m.state id).allEdges, ¬ forwarding edge.target

variable {forwarding within : StateId → Prop} {n bound : Nat}
  {ids : List StateId}

/-- A bound on a state lasts as long as the state. -/
theorem Bounded.of_same {m' : Machine} (h : m.Bounded rank forwarding bound id)
    (hsame : m'.state id = m.state id) :
    m'.Bounded rank forwarding bound id := by
  unfold Bounded
  rw [hsame]
  exact h

/-- A settled state is so as long as it stays as it is. -/
theorem Settled.of_same {m' : Machine} (h : m.Settled forwarding id)
    (hsame : m'.state id = m.state id) : m'.Settled forwarding id := by
  unfold Settled
  rw [hsame]
  exact h

/-- Redirects one edge of `id`. -/
def redirectEdge (id : StateId) (pair : Machine × Bool) (index : Nat) :
    Machine × Bool :=
  match (pair.1.state id).allEdges[index]? with
  | none => pair
  | some edge =>
    match pair.1.forwardTarget? edge.target with
    | some next => (pair.1.retarget id index next, true)
    | none => pair

/-- A state is redirected edge by edge. -/
theorem redirect_eq (m : Machine) (id : StateId) :
    m.redirect id
      = (List.range (m.state id).allEdges.length).foldl (redirectEdge id)
          (m, false) :=
  rfl

/-- One edge that is redirected keeps the course. -/
theorem Course.redirectEdge {pair : Machine × Bool}
    (h : Course rank forwarding within n pair.1) (id : StateId) (index : Nat) :
    Course rank forwarding within n
        (Machine.redirectEdge id pair index).1 := by
  unfold Machine.redirectEdge
  split
  · exact h
  · rename_i edge hedge
    split
    · rename_i next hnext
      exact keeps_course _ id index edge next h hedge hnext
    · exact h

/-- The first edges of the state are redirected. -/
structure Redirecting (m : Machine) (rank : StateId → Nat)
    (forwarding : StateId → Prop) (bound : Nat) (id : StateId) (done : Nat)
    (pair : Machine × Bool) :
    Prop where
  others : ∀ s, s ≠ id → pair.1.state s = m.state s
  length : (pair.1.state id).allEdges.length = (m.state id).allEdges.length
  ahead : ∀ i, done ≤ i → (pair.1.state id).allEdges[i]?
    = (m.state id).allEdges[i]?
  lower : ∀ i < done, ∀ edge, (pair.1.state id).allEdges[i]? = some edge →
    forwarding edge.target → rank edge.target ≤ bound
  same : pair.2 = false → ∀ i < done, ∀ edge, (pair.1.state id).allEdges[i]?
    = some edge → ¬ forwarding edge.target

/-- An edge that enters no forwarding state is passed over. -/
private theorem Redirecting.pass {done : Nat} {pair : Machine × Bool}
    (h : Redirecting m rank forwarding bound id done pair)
    (hnone : ∀ edge, (pair.1.state id).allEdges[done]? = some edge →
      ¬ forwarding edge.target) :
    Redirecting m rank forwarding bound id (done + 1) pair where
  others := h.others
  length := h.length
  ahead i hi := h.ahead i (Nat.le_of_succ_le hi)
  lower i hi edge hedge hforwarding := by
    rcases Nat.lt_succ_iff_lt_or_eq.mp hi with hi | rfl
    · exact h.lower i hi edge hedge hforwarding
    · exact absurd hforwarding (hnone edge hedge)
  same hsame i hi edge hedge := by
    rcases Nat.lt_succ_iff_lt_or_eq.mp hi with hi | rfl
    · exact h.same hsame i hi edge hedge
    · exact hnone edge hedge

/-- One more edge is redirected, to a state of lower rank. -/
private theorem Redirecting.step {done : Nat} {pair : Machine × Bool}
    (h : Redirecting m rank forwarding bound id done pair)
    (hcourse : Course rank forwarding within n pair.1)
    (hbound : m.Bounded rank forwarding (bound + 1) id) :
    Redirecting m rank forwarding bound id (done + 1)
        (redirectEdge id pair done) := by
  unfold redirectEdge
  cases hedge : (pair.1.state id).allEdges[done]? with
  | none => exact h.pass fun edge hsome => nomatch hedge.symm.trans hsome
  | some edge =>
      dsimp only
      cases hnext : pair.1.forwardTarget? edge.target with
      | none =>
          refine h.pass fun other hother hforwarding => ?_
          obtain rfl := Option.some.inj (hedge.symm.trans hother)
          exact forwardTarget_eq_none.mp hnext
            ((hcourse.forwarding _).mpr hforwarding)
      | some next =>
          have hid : id < pair.1.size :=
            lt_of_mem_allEdges (List.mem_of_getElem? hedge)
          have hedges : ((pair.1.retarget id done next).state id).allEdges
              = (pair.1.state id).allEdges.modify done
                  ({ · with target := next }) := by
            rw [state_retarget hid, if_pos rfl]
            exact State.allEdges_retarget
              (List.getElem?_eq_some_iff.mp hedge).1
          have hstep := forwardTarget_iff.mp hnext
          have hfrom : rank edge.target ≤ bound + 1 := by
            refine hbound edge ?_ ((hcourse.forwarding _).mp ⟨next, hstep⟩)
            exact List.mem_of_getElem?
              ((h.ahead done (Nat.le_refl _)).symm.trans hedge)
          have hless := hcourse.ranked _ _ hstep
          refine ⟨fun s hs => ?_, ?_, fun i hi => ?_,
            fun i hi e he hforwarding => ?_,
            fun hsame => nomatch hsame⟩
          · rw [state_retarget hid, if_neg hs.symm]
            exact h.others s hs
          · rw [hedges, List.length_modify]
            exact h.length
          · have hne : done ≠ i := by omega
            rw [hedges, List.getElem?_modify_ne _ _ hne]
            exact h.ahead i (Nat.le_of_succ_le hi)
          · rw [hedges] at he
            by_cases hsame : done = i
            · subst hsame
              rw [List.getElem?_modify_eq, hedge] at he
              obtain rfl := Option.some.inj he
              show rank next ≤ bound
              omega
            · rw [List.getElem?_modify_ne _ _ hsame] at he
              exact h.lower i (by omega) e he hforwarding

/-- A redirection of all edges of a state lowers the ranks they enter; if it
has nothing to do, no edge enters a forwarding state. -/
theorem redirect_lowers (hcourse : Course rank forwarding within n m)
    (hbound : m.Bounded rank forwarding (bound + 1) id) :
    (∀ s, s ≠ id → (m.redirect id).1.state s = m.state s)
      ∧ (m.redirect id).1.Bounded rank forwarding bound id
      ∧ ((m.redirect id).2 = false →
          (m.redirect id).1.Settled forwarding id) := by
  have hfold : ∀ done, Course rank forwarding within n
        ((List.range done).foldl (redirectEdge id) (m, false)).1
      ∧ Redirecting m rank forwarding bound id done
        ((List.range done).foldl (redirectEdge id) (m, false)) := by
    intro done
    induction done with
    | zero =>
        refine ⟨hcourse, fun _ _ => rfl, rfl, fun _ _ => rfl, fun i hi => ?_,
          fun _ i hi => ?_⟩
        · exact absurd hi (Nat.not_lt_zero i)
        · exact absurd hi (Nat.not_lt_zero i)
    | succ done ih =>
        rw [List.range_succ, List.foldl_append]
        exact ⟨ih.1.redirectEdge id done, ih.2.step ih.1 hbound⟩
  obtain ⟨_, h⟩ := hfold (m.state id).allEdges.length
  rw [← redirect_eq] at h
  refine ⟨h.others, fun edge hedge => ?_, fun hsame edge hedge => ?_⟩
  · obtain ⟨i, hi, hat⟩ := List.getElem_of_mem hedge
    exact h.lower i (h.length ▸ hi) edge (hat ▸ List.getElem?_eq_getElem hi)
  · obtain ⟨i, hi, hat⟩ := List.getElem_of_mem hedge
    exact h.same hsame i (h.length ▸ hi) edge
      (hat ▸ List.getElem?_eq_getElem hi)

/-- The states `ids` were looked at, and those that changed are noted. -/
structure Round (m : Machine) (rank : StateId → Nat)
    (forwarding : StateId → Prop) (bound : Nat) (ids : List StateId)
    (pair : Machine × List StateId) : Prop where
  others : ∀ s, s ∉ ids → pair.1.state s = m.state s
  lower : ∀ s ∈ ids, pair.1.Bounded rank forwarding bound s
  same : ∀ s ∈ ids, s ∉ pair.2 → pair.1.Settled forwarding s
  noted : ∀ s ∈ pair.2, s ∈ ids

/-- The turn of one more state comes after those before. -/
theorem redirectAll_append (m : Machine) (ids : List StateId) (id : StateId) :
    m.redirectAll (ids ++ [id])
      = (((m.redirectAll ids).1.redirect id).1,
        if ((m.redirectAll ids).1.redirect id).2 then
          (m.redirectAll ids).2 ++ [id]
        else (m.redirectAll ids).2) := by
  unfold redirectAll
  rw [List.foldl_append]
  rfl

/-- One more state is looked at. One that comes up again has been lowered
before, which does no harm. -/
private theorem Round.step {pair : Machine × List StateId}
    (h : Round m rank forwarding bound ids pair)
    (hcourse : Course rank forwarding within n pair.1)
    (hbound : m.Bounded rank forwarding (bound + 1) id) :
    Round m rank forwarding bound (ids ++ [id]) ((pair.1.redirect id).1,
      if (pair.1.redirect id).2 then pair.2 ++ [id] else pair.2) := by
  have hfrom : pair.1.Bounded rank forwarding (bound + 1) id := by
    by_cases hid : id ∈ ids
    · exact fun edge hedge hforwarding => Nat.le_succ_of_le
        (h.lower id hid edge hedge hforwarding)
    · exact hbound.of_same (h.others id hid)
  obtain ⟨hothers, hlower, hsettled⟩ := redirect_lowers hcourse hfrom
  obtain ⟨before, changed⟩ := pair
  generalize before.redirect id = result at hothers hlower hsettled
  obtain ⟨after, any⟩ := result
  have hnoted : ∀ s, s ∈ (if any then changed ++ [id] else changed)
      ↔ s ∈ changed ∨ any = true ∧ s = id := by
    intro s
    cases any <;> simp
  have hearlier : ∀ s ∈ ids ++ [id], s ≠ id → s ∈ ids := fun s hs hid =>
    (List.mem_append.mp hs).resolve_right fun hlast =>
      hid (List.mem_singleton.mp hlast)
  refine ⟨fun s hs => ?_, fun s hs => ?_, fun s hs hnew => ?_, fun s hs => ?_⟩
  · rw [List.mem_append, List.mem_singleton, not_or] at hs
    exact (hothers s hs.2).trans (h.others s hs.1)
  · by_cases hid : s = id
    · exact hid ▸ hlower
    · exact (h.lower s (hearlier s hs hid)).of_same (hothers s hid)
  · rw [hnoted, not_or, not_and'] at hnew
    by_cases hid : s = id
    · exact hid ▸ hsettled (Bool.eq_false_iff.mpr (hnew.2 hid))
    · exact (h.same s (hearlier s hs hid) hnew.1).of_same (hothers s hid)
  · rw [List.mem_append, List.mem_singleton]
    exact ((hnoted s).mp hs).imp (h.noted s) And.right

/-- A round lowers the ranks that its states enter. -/
theorem redirectAll_lowers (hcourse : Course rank forwarding within n m)
    (hbound : ∀ s ∈ ids, m.Bounded rank forwarding (bound + 1) s) :
    Round m rank forwarding bound ids (m.redirectAll ids) := by
  induction ids using List.reverseRecOn with
  | nil =>
      exact ⟨fun _ _ => rfl, fun _ h => absurd h List.not_mem_nil,
        fun _ h => absurd h List.not_mem_nil,
          fun _ h => absurd h List.not_mem_nil⟩
  | append_singleton ids id ih =>
      have hround := ih fun s hs => hbound s (List.mem_append_left _ hs)
      have hkept : Course rank forwarding within n (m.redirectAll ids).1 :=
        keeps_course.redirectAll hcourse ids
      rw [redirectAll_append]
      exact hround.step hkept
        (hbound id (List.mem_append_right _ List.mem_cons_self))

/-- Rounds settle the listed states that are not settled yet. -/
theorem redirectRounds_settles {listed : StateId → Prop} {rounds : Nat}
    (hcourse : Course rank forwarding within n m)
    (hbound : ∀ s ∈ ids, m.Bounded rank forwarding rounds s)
    (hsettled : ∀ s, listed s → s ∉ ids → m.Settled forwarding s) :
    ∀ s, listed s → (redirectRounds rounds m ids).Settled forwarding s := by
  induction rounds generalizing m ids with
  | zero =>
      intro s hs
      by_cases hid : s ∈ ids
      · -- no forwarding state is of rank zero
        intro edge hedge hforwarding
        obtain ⟨next, hstep⟩ := (hcourse.forwarding _).mpr hforwarding
        have hless := hcourse.ranked _ _ hstep
        have hzero := hbound s hid edge hedge hforwarding
        omega
      · exact hsettled s hs hid
  | succ rounds ih =>
      cases ids with
      | nil => exact fun s hs => hsettled s hs List.not_mem_nil
      | cons id ids =>
          have hround := redirectAll_lowers hcourse hbound
          show ∀ s, listed s →
            (redirectRounds rounds (m.redirectAll (id :: ids)).1
            (m.redirectAll (id :: ids)).2).Settled forwarding s
          refine ih (keeps_course.redirectAll hcourse (id :: ids))
            (fun s hs => hround.lower s (hround.noted s hs))
            fun s hs hnew => ?_
          by_cases hid : s ∈ id :: ids
          · exact hround.same s hid hnew
          · exact (hsettled s hs hid).of_same (hround.others s hid)

-- ============================================================== results

/-- More steps than the rank of a root lead to a state that does not
forward. -/
theorem not_forwarding_forwardRoot (h : m.Ranked rank) {steps : Nat}
    {root : StateId} (hsteps : rank root < steps) :
    ¬ m.Forwarding (m.forwardRoot steps root) := by
  induction steps generalizing root with
  | zero => exact absurd hsteps (Nat.not_lt_zero _)
  | succ steps ih =>
      unfold forwardRoot
      cases hnext : m.forwardTarget? root with
      | none => exact forwardTarget_eq_none.mp hnext
      | some next =>
          have hless := h root next (forwardTarget_iff.mp hnext)
          exact ih (by omega)

/-- A machine whose forwarding states do not lead around has a course. -/
theorem exists_course (h : ∀ id, ¬ Relation.TransGen m.Forwards id id)
    (hclosed : ∀ id, within id → ∀ edge ∈ (m.state id).allEdges, edge.target
      < m.size → within edge.target) :
    ∃ rank, Course rank m.Forwarding within m.size m
        ∧ ∀ id, rank id ≤ m.size := by
  obtain ⟨rank, hranked, hsmall⟩ := exists_rank h
  exact ⟨rank, ⟨rfl, hranked, fun _ => Iff.rfl, hclosed⟩, hsmall⟩

/-- There are rounds enough: in the end no listed state has an edge into a
forwarding state, and the root has been moved past them. -/
theorem Course.settled_skipForwarding
    (hcourse : Course rank m.Forwarding within m.size m)
    (hsmall : ∀ id, rank id ≤ m.size) (root : StateId) (ids : List StateId) :
    Course rank m.Forwarding within m.size (m.skipForwarding root ids).1
      ∧ (∀ s ∈ root :: ids, (m.skipForwarding root ids).1.Settled
        m.Forwarding s)
      ∧ ¬ (m.skipForwarding root ids).1.Forwarding
          (m.skipForwarding root ids).2 := by
  have hend : Course rank m.Forwarding within m.size
      (m.skipForwarding root ids).1 :=
    skipForwarding_keeps keeps_course hcourse root ids
  refine ⟨hend, ?_, not_forwarding_forwardRoot hend.ranked ?_⟩
  · exact redirectRounds_settles hcourse
      (fun _ _ _ _ _ => Nat.le_succ_of_le (hsmall _))
      fun s hs hnew => absurd (mem_ascending.mpr hs) hnew
  · show rank root < (m.skipForwarding root ids).1.size + 1
    rw [hend.size]
    exact Nat.lt_succ_of_le (hsmall root)

-- ========================================================== live states

/-- The root of a walk and what it comes to. -/
theorem mem_live {root s : StateId} : s ∈ root :: m.enumerate root ↔
    Relation.ReflTransGen
        (Exploration.Edge m.size fun id => (m.state id).targets) root s := by
  rw [List.mem_cons, enumerate, Exploration.mem_afterRoot,
    Relation.reflTransGen_iff_eq_or_transGen]

/-- What is walked to from a state of a set that no edge leaves is in the
set. -/
private theorem Course.reaches (h : Course rank forwarding within n m)
    {entry s : StateId} (hentry : entry < n → within entry)
    (hs : Relation.ReflTransGen
      (Exploration.Edge m.size fun id => (m.state id).targets) entry s) :
    s < n → within s := by
  induction hs with
  | refl => exact hentry
  | @tail y x _ hedge ih =>
      obtain ⟨edge, hmem, rfl⟩ := List.mem_map.mp hedge.1
      exact h.closed y (ih (h.size ▸ lt_of_mem_allEdges hmem)) edge hmem

/-- A root in a set that no edge leaves is forwarded to one in the set. -/
private theorem Course.entry (h : Course rank forwarding within n m)
    {root : StateId} (hroot : within root) (steps : Nat) :
    m.forwardRoot steps root < n → within (m.forwardRoot steps root) := by
  refine forwardRoot_keeps (Q := fun s => s < n → within s) steps
    (fun _ => hroot) ?_
  intro id next hid hnext
  obtain ⟨⟨onward, honward, rfl⟩, _⟩ := forwardTarget_iff.mp hnext
  have hid' : within id :=
    hid (h.size ▸ lt_of_mem_allEdges honward.mem_allEdges)
  exact h.closed id hid' onward honward.mem_allEdges

/-- Where forwarding states do not lead around, no state forwards that is live
once they are skipped, and none has an edge into one that does. -/
theorem live_of_skipForwarding (h : ∀ id, ¬ Relation.TransGen m.Forwards id id)
    {root : StateId} {after : Machine} {entry : StateId}
    (hafter : m.skipForwarding root (m.enumerate root) = (after, entry)) :
    ∀ s ∈ entry :: after.enumerate entry, ¬ after.Forwarding s
      ∧ ∀ edge ∈ (after.state s).allEdges, ¬ after.Forwarding edge.target := by
  have hclosed : ∀ id, id ∈ root :: m.enumerate root →
      ∀ edge ∈ (m.state id).allEdges,
      edge.target < m.size → edge.target ∈ root :: m.enumerate root := by
    intro id hid edge hedge hlt
    rw [mem_live] at hid ⊢
    exact hid.tail ⟨List.mem_map_of_mem hedge, hlt⟩
  obtain ⟨rank, hcourse, hsmall⟩ := exists_course h hclosed
  obtain ⟨hend, hsettled, hentry⟩ :=
    hcourse.settled_skipForwarding hsmall root (m.enumerate root)
  have hwithin : (m.skipForwarding root (m.enumerate root)).2 < m.size →
      (m.skipForwarding root (m.enumerate root)).2
          ∈ root :: m.enumerate root :=
    hend.entry List.mem_cons_self _
  rw [hafter] at hend hsettled hentry hwithin
  dsimp only at hend hsettled hentry hwithin
  have htargets : ∀ s ∈ entry :: after.enumerate entry,
      ∀ edge ∈ (after.state s).allEdges, ¬ after.Forwarding edge.target := by
    intro s hs edge hmem
    have hlisted := hend.reaches hwithin (mem_live.mp hs)
      (hend.size ▸ lt_of_mem_allEdges hmem)
    exact fun hforwards => hsettled s hlisted edge hmem
      ((hend.forwarding _).mp hforwards)
  intro s hs
  refine ⟨?_, htargets s hs⟩
  rcases List.mem_cons.mp hs with rfl | hs
  · exact hentry
  · -- the last edge to a live state leaves a live state
    obtain ⟨y, hy, hedge⟩ :=
      Relation.TransGen.tail'_iff.mp (Exploration.mem_afterRoot.mp hs)
    obtain ⟨edge, hmem, rfl⟩ := List.mem_map.mp hedge.1
    exact htargets y (mem_live.mpr hy) edge hmem

/-- Where idle states do not lead around, no state is idle that is live once
forwarding states are skipped. -/
theorem not_idle_of_skipForwarding
    (h : ∀ id, ¬ Relation.TransGen m.Passes id id) {root : StateId}
    {after : Machine} {entry : StateId}
    (hafter : after = (m.skipForwarding root (m.enumerate root)).1)
    (hentry : entry = after.forwardRoot (after.size + 1) root) :
    ∀ s ∈ entry :: after.enumerate entry, ¬ after.Idle s := by
  have honward := onward_skipForwarding m root (m.enumerate root)
  rw [← hafter] at honward
  have hpair : m.skipForwarding root (m.enumerate root) = (after, entry) := by
    rw [hentry, hafter]
    rfl
  have hpasses : ∀ a b, m.Forwards a b → m.Passes a b :=
    fun _ _ hstep => hstep.1
  have hacyclic : ∀ id, ¬ Relation.TransGen m.Forwards id id :=
    fun id hround => h id (Relation.TransGen.mono hpasses _ _ hround)
  rintro s hs ⟨edge', hidle⟩
  obtain ⟨edge, hbefore, hled⟩ := (honward.states s).passesAlong hidle
  -- the state would lead on to itself, but then it did so all along
  have hself : edge'.target = s := by
    by_contra hne
    exact (live_of_skipForwarding hacyclic hpair s hs).1
      ⟨_, ⟨edge', hidle, rfl⟩, hne⟩
  have hreach := hled.target
  rw [hself] at hreach
  exact h s
    (.head' ⟨edge, hbefore, rfl⟩
    (Relation.ReflTransGen.mono hpasses _ _ hreach))

end Bytewise.Machine

/-
Machines whose states are related one by one.

A walk sees of a state only where its targets first occur. Redirections
change targets only, as one function of them (`redirect_eq_move`). So a
relation of states that says how they pass on, and is kept when targets
are moved alike (`State.Steady`), is kept by the removal of forwarding
states; and the walks of such machines list the same.
-/
import Bytewise.Machine.Walk
import Bytewise.Proofs.Machine.Skipping

namespace Bytewise

-- ========================================================== discoveries

namespace Exploration

/-- A discovery sees of its targets only where they first occur. -/
theorem discover_firsts {seen : Array Bool} {done ts : List Nat}
    (h : ∀ t ∈ done, t < seen.size → seen.getD t false = true) :
    discover seen ts = discover seen (firsts done ts) := by
  induction ts generalizing seen done with
  | nil => rfl
  | cons t ts ih =>
      by_cases ht : t ∈ done
      · rw [firsts_cons_of_mem ht, ← ih h]
        by_cases hlt : t < seen.size
        · exact discover_marked hlt (h t ht hlt) ts
        · exact discover_outside hlt ts
      · rw [firsts_cons_of_notMem ht]
        by_cases hlt : t < seen.size
        · cases hmark : seen.getD t false with
          | true =>
              rw [discover_marked hlt hmark, discover_marked hlt hmark]
              refine ih fun u hu hlt' => ?_
              rcases List.mem_append.mp hu with hu | hu
              · exact h u hu hlt'
              · rw [List.mem_singleton.mp hu]
                exact hmark
          | false =>
              rw [discover_new hlt hmark, discover_new hlt hmark,
                ih fun u hu hlt' => ?_]
              rw [mark_set hlt]
              rcases List.mem_append.mp hu with hu | hu
              · by_cases hut : u = t
                · rw [if_pos hut]
                · rw [if_neg hut]
                  exact h u hu (by simpa using hlt')
              · rw [if_pos (List.mem_singleton.mp hu)]
        · rw [discover_outside hlt, discover_outside hlt]
          refine ih fun u hu hlt' => ?_
          rcases List.mem_append.mp hu with hu | hu
          · exact h u hu hlt'
          · exact absurd (List.mem_singleton.mp hu ▸ hlt') hlt

/-- Walks along targets that first occur in one order list the same. -/
theorem walk_congr {targets targets' : Nat → List Nat} {order : Order}
    (h : ∀ id, firsts [] (targets id) = firsts [] (targets' id))
    (seen : Array Bool) (waiting : List Nat) (listed : Array Nat) :
    walk targets order seen waiting listed = walk targets' order seen waiting
        listed := by
  have hsame : ∀ seen id, discover seen (targets id)
      = discover seen (targets' id) := by
    intro seen id
    have hnone : ∀ t ∈ ([] : List Nat), t < seen.size →
        seen.getD t false = true :=
      fun t ht => absurd ht List.not_mem_nil
    rw [discover_firsts hnone, h id, ← discover_firsts hnone]
  fun_induction walk targets order seen waiting listed with
  | case1 => rw [walk]
  | case2 seen listed id waiting next ih =>
      rw [walk, ← hsame seen id]
      exact ih

end Exploration

namespace Machine

-- =============================================================== moving

/-- The edge with its target moved. -/
def Edge.move (f : StateId → StateId) (edge : Edge) : Edge :=
  { edge with target := f edge.target }

/-- The state with the targets of its first `n` edges moved. -/
def State.moveFirst (f : StateId → StateId) (n : Nat) (state : State) :
    State :=
  { state with
    edges := state.edges.mapIdx fun i edge => if i < n then
      edge.move f else edge
    otherwise := if state.edges.length < n then state.otherwise.map (·.move f)
      else state.otherwise }

/-- The state with the targets of all edges moved. -/
def State.move (f : StateId → StateId) (state : State) : State :=
  { state with
    edges := state.edges.map (·.move f)
    otherwise := state.otherwise.map (·.move f) }

variable {f : StateId → StateId}

theorem State.moveFirst_zero (state : State) :
    state.moveFirst f 0 = state := by
  obtain ⟨name, nodeName, kind, transform, edges, otherwise⟩ := state
  unfold State.moveFirst
  dsimp only
  congr 1
  refine List.ext_getElem? fun i => ?_
  rw [List.getElem?_mapIdx]
  cases edges[i]? <;> rfl

/-- All edges are as many as there are. -/
theorem State.moveFirst_all (state : State) :
    state.moveFirst f state.allEdges.length = state.move f := by
  obtain ⟨name, nodeName, kind, transform, edges, otherwise⟩ := state
  unfold State.moveFirst State.move State.allEdges
  dsimp only
  congr 1
  · refine List.ext_getElem? fun i => ?_
    rw [List.getElem?_mapIdx, List.getElem?_map]
    cases hi : edges[i]? with
    | none => rfl
    | some edge =>
        have hlt := (List.getElem?_eq_some_iff.mp hi).1
        have hlt' : i < (edges ++ otherwise.toList).length := by
          rw [List.length_append]
          omega
        rw [Option.map_some, Option.map_some, if_pos hlt']
  · cases otherwise with
    | none => simp
    | some edge => simp

/-- The edges from the `n`-th on stay where they are. -/
theorem State.getElem?_moveFirst {state : State} {n i : Nat} (h : n ≤ i) :
    (state.moveFirst f n).allEdges[i]? = state.allEdges[i]? := by
  obtain ⟨name, nodeName, kind, transform, edges, otherwise⟩ := state
  unfold State.moveFirst State.allEdges
  dsimp only
  rw [List.getElem?_append, List.getElem?_append, List.length_mapIdx]
  by_cases hi : i < edges.length
  · rw [if_pos hi, if_pos hi, List.getElem?_mapIdx]
    simp [Nat.not_lt.mpr h]
  · rw [if_neg hi, if_neg hi]
    by_cases hn : edges.length < n
    · -- the otherwise edge comes before
      rw [if_pos hn]
      cases otherwise with
      | none => rfl
      | some edge =>
          have hpast : [edge].length ≤ i - edges.length := by
            rw [List.length_singleton]
            omega
          exact (List.getElem?_eq_none hpast).symm
            ▸ List.getElem?_eq_none hpast
    · rw [if_neg hn]

/-- With one more edge retargeted, one more is moved. -/
theorem State.retarget_moveFirst {state : State} {n : Nat} {edge : Edge}
    (h : state.allEdges[n]? = some edge) :
    (state.moveFirst f n).retarget n (f edge.target)
        = state.moveFirst f (n + 1) := by
  obtain ⟨name, nodeName, kind, transform, edges, otherwise⟩ := state
  unfold State.allEdges at h
  dsimp only at h
  unfold State.retarget State.moveFirst
  dsimp only
  rw [List.length_mapIdx]
  by_cases hn : n < edges.length
  · rw [if_pos hn, if_neg (by omega), if_neg (by omega)]
    congr 1
    rw [List.getElem?_append_left hn] at h
    refine List.ext_getElem? fun i => ?_
    rw [List.getElem?_modify, List.getElem?_mapIdx, List.getElem?_mapIdx]
    by_cases hi : n = i
    · subst hi
      simp [h, Edge.move]
    · have hiff : i < n ↔ i < n + 1 := by omega
      simp only [if_neg hi, hiff]
      cases edges[i]? <;> rfl
  · rw [if_neg hn]
    rw [List.getElem?_append_right (by omega)] at h
    obtain ⟨hzero, hother⟩ : n - edges.length = 0 ∧ otherwise = some edge := by
      cases otherwise with
      | none => simp at h
      | some other =>
          rw [Option.toList_some, List.getElem?_singleton] at h
          split at h
          · exact ⟨‹_›, h⟩
          · cases h
    subst hother
    rw [if_neg (by omega), if_pos (by omega)]
    congr 1
    refine List.ext_getElem? fun i => ?_
    rw [List.getElem?_mapIdx, List.getElem?_mapIdx]
    cases hi : edges[i]? with
    | none => rfl
    | some other =>
        have hlt := (List.getElem?_eq_some_iff.mp hi).1
        rw [Option.map_some, Option.map_some, if_pos (by omega),
          if_pos (by omega)]

/-- An edge that is led where it leads stays as it is. -/
theorem State.retarget_self {state : State} {n : Nat} {edge : Edge}
    (h : state.allEdges[n]? = some edge) :
    state.retarget n edge.target = state := by
  obtain ⟨name, nodeName, kind, transform, edges, otherwise⟩ := state
  unfold State.allEdges at h
  unfold State.retarget
  dsimp only at h ⊢
  split
  · rename_i hn
    rw [List.getElem?_append_left hn] at h
    congr 1
    refine List.ext_getElem? fun i => ?_
    rw [List.getElem?_modify]
    by_cases hi : n = i
    · subst hi
      simp [h]
    · cases edges[i]? <;> simp [hi]
  · rename_i hn
    rw [List.getElem?_append_right (by omega)] at h
    cases otherwise with
    | none => rfl
    | some other =>
        obtain rfl := List.mem_singleton.mp (List.mem_of_getElem? h)
        rfl

-- ========================================================= redirections

variable {m m' : Machine} {id : StateId}

/-- Where edges into `id` are redirected to. -/
def onward (m : Machine) (id : StateId) : StateId :=
  (m.forwardTarget? id).getD id

/-- The machine with the first `n` edges of `id` redirected. -/
private def redirected (m : Machine) (id : StateId) (n : Nat) : Machine :=
  m.modifyState id (·.moveFirst m.onward n)

/-- Two changes of one state are one. -/
theorem modifyState_modifyState (f g : State → State) :
    (m.modifyState id f).modifyState id g = m.modifyState id (g ∘ f) := by
  unfold modifyState
  congr 1
  refine Array.ext (by simp) fun i hi hi' => ?_
  simp only [Array.getElem_modify]
  split <;> rfl

/-- Changes that do the same to a state are the same there. -/
theorem modifyState_congr {f g : State → State}
    (h : f (m.state id) = g (m.state id)) :
    m.modifyState id f = m.modifyState id g := by
  unfold modifyState
  congr 1
  refine Array.ext (by simp) fun i hi hi' => ?_
  simp only [Array.getElem_modify]
  split
  · rename_i hid
    subst hid
    have hlt : id < m.states.size := by simpa using hi
    simpa [state, Array.getD, hlt] using h
  · rfl

/-- A change that leaves a state as it is changes nothing. -/
theorem modifyState_self {f : State → State}
    (h : f (m.state id) = m.state id) :
    m.modifyState id f = m := by
  rw [modifyState_congr (g := fun state => state) h]
  unfold modifyState
  congr 1
  refine Array.ext (by simp) fun i hi hi' => ?_
  rw [Array.getElem_modify]
  split <;> rfl

/-- What a state passes on to is a matter of that state alone. -/
theorem forwardTarget_congr {t : StateId} (h : m.state t = m'.state t) :
    m.forwardTarget? t = m'.forwardTarget? t := by
  unfold forwardTarget?
  rw [h]

/-- A state with keys does not forward. -/
theorem forwardTarget_of_edges (h : (m.state id).edges ≠ []) :
    m.forwardTarget? id = none := by
  unfold forwardTarget?
  have hedges : (m.state id).edges.isEmpty = false := by simpa using h
  simp [hedges]

/-- A change of one state leaves another as it is. -/
theorem state_modify_of_ne {t : StateId} (h : id ≠ t)
    (change : State → State) :
    (m.modifyState id change).state t = m.state t := by
  by_cases ht : t < m.size
  · rw [state_modify ht, if_neg h]
  · have hge : m.size ≤ t := Nat.not_lt.mp ht
    rw [state_of_ge hge, state_of_ge (by rwa [size_modify])]

/-- While a state has edges left to redirect, what passes on is as before. -/
private theorem forwardTarget_redirected {n : Nat}
    (hn : n < (m.state id).allEdges.length) (t : StateId) :
    (m.redirected id n).forwardTarget? t = m.forwardTarget? t := by
  have hid : id < m.size := lt_of_mem_allEdges (List.getElem_mem hn)
  have hstate : (m.redirected id n).state id = (m.state id).moveFirst
      m.onward n := by
    unfold redirected
    rw [state_modify hid, if_pos rfl]
  by_cases ht : id = t
  · subst ht
    cases n with
    | zero =>
        refine forwardTarget_congr ?_
        rw [hstate, State.moveFirst_zero]
    | succ n =>
        -- a state with a second edge has a keyed one
        have hedges : (m.state id).edges ≠ [] := by
          intro hnil
          unfold State.allEdges at hn
          rw [hnil] at hn
          cases hother : (m.state id).otherwise <;> simp [hother] at hn
        rw [forwardTarget_of_edges hedges, forwardTarget_of_edges]
        rw [hstate]
        unfold State.moveFirst
        simpa using hedges
  · exact forwardTarget_congr (state_modify_of_ne ht _)

/-- Redirecting one more edge of a state moves one more of them. -/
private theorem redirectEdge_redirected {n : Nat}
    (hn : n < (m.state id).allEdges.length) (changed : Bool) :
    redirectEdge id (m.redirected id n, changed) n
      = (m.redirected id (n + 1),
        changed
            || (m.forwardTarget?
            ((m.state id).allEdges[n]).target).isSome) := by
  have hid : id < m.size := lt_of_mem_allEdges (List.getElem_mem hn)
  have hedge : (m.state id).allEdges[n]? = some ((m.state id).allEdges[n]) :=
    List.getElem?_eq_getElem hn
  generalize (m.state id).allEdges[n] = edge at hedge
  have hstate : (m.redirected id n).state id = (m.state id).moveFirst
      m.onward n := by
    unfold redirected
    rw [state_modify hid, if_pos rfl]
  have hretarget : (m.redirected id n).retarget id n (m.onward edge.target)
      = m.redirected id (n + 1) := by
    unfold redirected retarget
    rw [modifyState_modifyState]
    exact modifyState_congr (State.retarget_moveFirst hedge)
  unfold redirectEdge
  dsimp only
  rw [hstate, State.getElem?_moveFirst (Nat.le_refl n), hedge]
  dsimp only
  rw [forwardTarget_redirected hn, ← hretarget]
  unfold onward
  cases hnext : m.forwardTarget? edge.target with
  | some next => simp
  | none =>
      have hself : (m.redirected id n).retarget id n edge.target
          = m.redirected id n := by
        refine modifyState_self ?_
        rw [hstate]
        refine State.retarget_self ?_
        rw [State.getElem?_moveFirst (Nat.le_refl n), hedge]
      simp [hself]

/-- The edges of a state are redirected all at once. -/
theorem redirect_eq_move (m : Machine) (id : StateId) :
    m.redirect id = (m.modifyState id (·.move m.onward),
      (m.state id).targets.any fun t => (m.forwardTarget? t).isSome) := by
  have hfirst : ∀ n ≤ (m.state id).allEdges.length,
      (List.range n).foldl (redirectEdge id) (m, false) = (m.redirected id n,
        ((m.state id).targets.take n).any fun t =>
            (m.forwardTarget? t).isSome) := by
    intro n hn
    induction n with
    | zero =>
        have hnone : m.redirected id 0 = m :=
          modifyState_self (State.moveFirst_zero _)
        rw [hnone]
        rfl
    | succ n ih =>
        rw [List.range_succ, List.foldl_append, ih (by omega), List.foldl_cons,
          List.foldl_nil,
          redirectEdge_redirected hn]
        have hlt : n < (m.state id).targets.length := by
          unfold State.targets
          rwa [List.length_map]
        rw [List.take_succ_eq_append_getElem hlt, List.any_append]
        simp [State.targets]
  rw [redirect_eq, hfirst _ (Nat.le_refl _)]
  congr 1
  · exact modifyState_congr (State.moveFirst_all _)
  · have hall : (m.state id).targets.length ≤ (m.state id).allEdges.length :=
      Nat.le_of_eq (List.length_map _)
    rw [List.take_of_length_le hall]

-- ========================================================= two machines

/-- A relation of states that redirections keep: related states pass on alike,
their targets first occur in one order, and they stay related with their
targets moved alike. -/
structure State.Steady (R : State → State → Prop) : Prop where
  passes : ∀ {s s'}, R s s' → ∀ edge, s.PassesAlong edge ↔ s'.PassesAlong edge
  order : ∀ {s s'}, R s s' → firsts [] s.targets = firsts [] s'.targets
  move : ∀ {s s'}, R s s' → ∀ f, R (s.move f) (s'.move f)

/-- The machines have as many states, which are related one by one. -/
structure Abreast (R : State → State → Prop) (m m' : Machine) : Prop where
  size : m.size = m'.size
  states : ∀ id, id < m.size → R (m.state id) (m'.state id)

variable {R : State → State → Prop}

/-- Outside the machines there is one state to be found. -/
theorem Abreast.related (h : Abreast R m m') (id : StateId) :
    R (m.state id) (m'.state id) ∨ m.state id = m'.state id := by
  by_cases hid : id < m.size
  · exact Or.inl (h.states id hid)
  · have hge : m.size ≤ id := Nat.not_lt.mp hid
    rw [state_of_ge hge, state_of_ge (h.size ▸ hge)]
    exact Or.inr rfl

/-- Related states pass on to the same state. -/
theorem Abreast.forwardTarget (h : Abreast R m m') (hR : State.Steady R)
    (id : StateId) :
    m.forwardTarget? id = m'.forwardTarget? id := by
  rcases h.related id with hstates | heq
  · refine Option.ext fun next => ?_
    rw [forwardTarget_iff, forwardTarget_iff]
    exact and_congr_left'
      (exists_congr fun edge => and_congr_left' (hR.passes hstates edge))
  · exact forwardTarget_congr heq

/-- The targets of related states first occur in one order. -/
theorem Abreast.order (h : Abreast R m m') (hR : State.Steady R)
    (id : StateId) :
    firsts [] (m.state id).targets = firsts [] (m'.state id).targets := by
  rcases h.related id with hstates | heq
  · exact hR.order hstates
  · rw [heq]

/-- States changed alike stay related. -/
theorem Abreast.modify (h : Abreast R m m') (id : StateId)
    {change change' : State → State}
    (hchange : id < m.size → R (change (m.state id)) (change' (m'.state id))) :
    Abreast R (m.modifyState id change) (m'.modifyState id change') where
  size := by rw [size_modify, size_modify, h.size]
  states t ht := by
    rw [size_modify] at ht
    rw [state_modify ht, state_modify (h.size ▸ ht)]
    split
    · rename_i hsame
      subst hsame
      exact hchange ht
    · exact h.states t ht

/-- States added alike stay related. -/
theorem Abreast.push (h : Abreast R m m') {s s' : State} (hs : R s s') :
    Abreast R { m with states := m.states.push s }
        { m' with states := m'.states.push s' } where
  size := by
    show (m.states.push s).size = (m'.states.push s').size
    rw [Array.size_push, Array.size_push]
    exact congrArg (· + 1) h.size
  states t ht := by
    have hsize : (m.states.push s).size = m.size + 1 := Array.size_push s
    replace ht : t < (m.states.push s).size := ht
    rw [hsize] at ht
    rcases Nat.lt_succ_iff_lt_or_eq.mp ht with ht | rfl
    · rw [state_push_of_lt ht, state_push_of_lt (h.size ▸ ht)]
      exact h.states t ht
    · rw [state_push_size, h.size, state_push_size]
      exact hs

/-- One of the targets is such if one that first occurs is. -/
private theorem any_firsts {p : StateId → Bool} {ts : List StateId} :
    ts.any p = (firsts [] ts).any p := by
  rw [Bool.eq_iff_iff, List.any_eq_true, List.any_eq_true]
  simp [mem_firsts]

/-- Machines stay abreast in the turn of a state. -/
theorem Abreast.redirect (h : Abreast R m m') (hR : State.Steady R)
    (id : StateId) :
    Abreast R (m.redirect id).1 (m'.redirect id).1
        ∧ (m.redirect id).2 = (m'.redirect id).2 := by
  have honward : m.onward = m'.onward := by
    funext t
    unfold onward
    rw [h.forwardTarget hR t]
  rw [redirect_eq_move, redirect_eq_move]
  constructor
  · refine h.modify id fun hid => ?_
    rw [honward]
    exact hR.move (h.states id hid) _
  · dsimp only
    rw [any_firsts, h.order hR id, ← any_firsts]
    simp only [h.forwardTarget hR]

theorem Abreast.redirectAll (h : Abreast R m m') (hR : State.Steady R)
    (ids : List StateId) :
    Abreast R (m.redirectAll ids).1 (m'.redirectAll ids).1
      ∧ (m.redirectAll ids).2 = (m'.redirectAll ids).2 := by
  refine List.foldl_rel
    (r := fun pair pair' : Machine × List StateId => Abreast R pair.1 pair'.1
      ∧ pair.2 = pair'.2)
    ⟨h, rfl⟩ fun id _ pair pair' hpair => ?_
  obtain ⟨m, changed⟩ := pair
  obtain ⟨m', changed'⟩ := pair'
  obtain ⟨hm, hchanged⟩ := hpair
  obtain ⟨hnext, hsame⟩ := Abreast.redirect hm hR id
  refine ⟨hnext, ?_⟩
  dsimp only at hchanged ⊢
  rw [hsame, hchanged]

theorem Abreast.redirectRounds (h : Abreast R m m') (hR : State.Steady R)
    (rounds : Nat) (ids : List StateId) :
    Abreast R (redirectRounds rounds m ids)
        (redirectRounds rounds m' ids) := by
  induction rounds generalizing m m' ids with
  | zero => exact h
  | succ rounds ih =>
      cases ids with
      | nil => exact h
      | cons id ids =>
          obtain ⟨hnext, hsame⟩ := h.redirectAll hR (id :: ids)
          show Abreast R
              (Machine.redirectRounds rounds (m.redirectAll (id :: ids)).1
              (m.redirectAll (id :: ids)).2)
            (Machine.redirectRounds rounds (m'.redirectAll (id :: ids)).1
              (m'.redirectAll (id :: ids)).2)
          rw [hsame]
          exact ih hnext _

/-- The root is forwarded alike in both. -/
theorem Abreast.forwardRoot (h : Abreast R m m') (hR : State.Steady R)
    (steps : Nat) (root : StateId) :
    m.forwardRoot steps root = m'.forwardRoot steps root := by
  induction steps generalizing root with
  | zero => rfl
  | succ steps ih =>
      unfold Machine.forwardRoot
      rw [h.forwardTarget hR root]
      cases m'.forwardTarget? root with
      | none => rfl
      | some next => exact ih next

/-- The removal of forwarding states leaves related states, with one root. -/
theorem Abreast.skipForwarding (h : Abreast R m m') (hR : State.Steady R)
    (root : StateId) (ids : List StateId) :
    Abreast R (m.skipForwarding root ids).1 (m'.skipForwarding root ids).1
      ∧ (m.skipForwarding root ids).2 = (m'.skipForwarding root ids).2 := by
  unfold Machine.skipForwarding
  have hrounds := h.redirectRounds hR (m.size + 1) (ascending (root :: ids))
  rw [← h.size]
  refine ⟨hrounds, ?_⟩
  dsimp only
  rw [← hrounds.size]
  exact hrounds.forwardRoot hR _ root

/-- The same states are listed, in the same order. -/
theorem Abreast.enumerate (h : Abreast R m m') (hR : State.Steady R)
    (root : StateId) :
    m.enumerate root = m'.enumerate root := by
  unfold Machine.enumerate Exploration.afterRoot
  rw [h.size, Exploration.walk_congr (h.order hR)]

end Machine

end Bytewise

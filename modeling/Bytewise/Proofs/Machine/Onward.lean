/-
Where redirected edges lead.

States are rewritten in place, and what is forwarded past later may have
been rewritten before. `Onward` holds all along: a state differs from what
it was in the targets of its edges at most, and each target is reached from
the one before by forwarding steps of the machine as it was at first. A
state that forwards after some rewriting leads on to where it did, or to
itself, so a step past it adds to the chain (`Onward.forwards`), whether or
not forwarding states lead around.
-/
import Mathlib.Data.List.Forall2
import Mathlib.Data.Option.Basic
import Mathlib.Logic.Relation
import Bytewise.Proofs.Machine.Forwarding

namespace Bytewise.Machine

variable {m after : Machine} {id next : StateId}

-- ============================================================ relations

/-- The edge leads to where its target forwards to, or where it did, and is the
same otherwise. -/
structure Edge.Onward (m : Machine) (edge edge' : Edge) : Prop where
  key : edge'.key = edge.key
  noAdvance : edge'.noAdvance = edge.noAdvance
  value : edge'.value = edge.value
  target : Relation.ReflTransGen m.Forwards edge.target edge'.target

/-- The edges of the state lead on, and it is the same otherwise. -/
structure State.Onward (m : Machine) (state state' : State) : Prop where
  name : state'.name = state.name
  nodeName : state'.nodeName = state.nodeName
  kind : state'.kind = state.kind
  transform : state'.transform = state.transform
  edges : List.Forall₂ (Edge.Onward m) state.edges state'.edges
  otherwise : Option.Rel (Edge.Onward m) state.otherwise state'.otherwise

/-- The edges of the machine lead on, and it is the same otherwise. -/
structure Onward (m after : Machine) : Prop where
  size : after.size = m.size
  codes : after.codes = m.codes
  states : ∀ s, State.Onward m (m.state s) (after.state s)

theorem Edge.Onward.refl (m : Machine) (edge : Edge) :
    Edge.Onward m edge edge :=
  ⟨rfl, rfl, rfl, .refl⟩

theorem State.Onward.refl (m : Machine) (state : State) :
    State.Onward m state state := by
  refine ⟨rfl, rfl, rfl, rfl, List.forall₂_same.mpr fun edge _ =>
    .refl m edge, ?_⟩
  cases state.otherwise with
  | none => exact .none
  | some edge => exact .some (.refl m edge)

theorem Onward.refl (m : Machine) : Onward m m :=
  ⟨rfl, rfl, fun s => .refl m (m.state s)⟩

/-- What no state has changed in is listed alike. -/
theorem Onward.map_states {α : Type} {f : State → α} (h : Onward m after)
    (hf : ∀ s, f (after.state s) = f (m.state s)) :
    after.states.toList.map f = m.states.toList.map f := by
  have hsize : after.states.size = m.states.size := h.size
  refine List.ext_getElem (by simpa using hsize) fun s hs hs' => ?_
  have hlt : s < after.states.size := by simpa using hs
  have hlt' : s < m.states.size := by simpa using hs'
  simpa [Machine.state, Array.getD, hlt, hlt'] using hf s

-- ================================================================ steps

/-- A state that passes on did so before. -/
theorem State.Onward.passesAlong {state state' : State} {edge' : Edge}
    (h : State.Onward m state state') (hpasses : state'.PassesAlong edge') :
    ∃ edge, state.PassesAlong edge ∧ Edge.Onward m edge edge' := by
  have hedges := h.edges
  have hother := h.otherwise
  rw [hpasses.edges] at hedges
  rw [hpasses.otherwise] at hother
  cases hbefore : state.otherwise with
  | none =>
      rw [hbefore] at hother
      cases hother
  | some edge =>
      rw [hbefore] at hother
      cases hother with
      | some honward =>
          exact ⟨edge, {
            kind := h.kind ▸ hpasses.kind
            edges := List.forall₂_nil_right_iff.mp hedges
            otherwise := hbefore
            stays := honward.noAdvance ▸ hpasses.stays
            value := honward.value ▸ hpasses.value }, honward⟩

/-- A state that forwards leads on by forwarding steps of the first machine. -/
theorem Onward.forwards (h : Onward m after)
    (hforwards : after.Forwards id next) :
    Relation.ReflTransGen m.Forwards id next := by
  obtain ⟨⟨edge', hpasses', rfl⟩, _⟩ := hforwards
  obtain ⟨edge, hpasses, honward⟩ := (h.states id).passesAlong hpasses'
  by_cases hself : edge.target = id
  · rw [← hself]
    exact honward.target
  · exact .head ⟨⟨edge, hpasses, rfl⟩, hself⟩ honward.target

/-- The edge at an index leads on one step more. -/
private theorem forall₂_modify {es es' : List Edge} {index : Nat} {edge : Edge}
    (h : List.Forall₂ (Edge.Onward m) es es') (hedge : es'[index]? = some edge)
    (hnext : Relation.ReflTransGen m.Forwards edge.target next) :
    List.Forall₂ (Edge.Onward m) es
        (es'.modify index ({ · with target := next })) := by
  induction h generalizing index with
  | nil => cases hedge
  | @cons e e' es es' hfirst hrest ih =>
      cases index with
      | zero =>
          obtain rfl := Option.some.inj hedge
          exact .cons ⟨hfirst.key, hfirst.noAdvance, hfirst.value,
            hfirst.target.trans hnext⟩ hrest
      | succ index => exact .cons hfirst (ih hedge)

theorem State.Onward.retarget {state state' : State} {index : Nat}
    {edge : Edge} (h : State.Onward m state state')
    (hedge : state'.allEdges[index]? = some edge)
    (hnext : Relation.ReflTransGen m.Forwards edge.target next) :
    State.Onward m state (state'.retarget index next) := by
  unfold State.retarget
  unfold State.allEdges at hedge
  split
  · rename_i hlt
    rw [List.getElem?_append_left hlt] at hedge
    exact { h with edges := forall₂_modify h.edges hedge hnext }
  · rename_i hge
    rw [List.getElem?_append_right (Nat.le_of_not_lt hge)] at hedge
    have hother := h.otherwise
    refine { h with otherwise := ?_ }
    cases hafter : state'.otherwise with
    | none =>
        rw [hafter] at hother
        exact hother
    | some last =>
        -- the edge behind the keyed ones is the last
        rw [hafter] at hedge hother
        obtain rfl : last = edge := by
          have hmem := List.mem_of_getElem? hedge
          rw [Option.toList_some, List.mem_singleton] at hmem
          exact hmem.symm
        generalize state.otherwise = before at hother
        cases hother with
        | some hlast =>
            exact .some ⟨hlast.key, hlast.noAdvance, hlast.value,
              hlast.target.trans hnext⟩

/-- One redirection leads on. -/
theorem keeps_onward (m : Machine) : Keeps (Onward m) := by
  intro after id index edge next h hedge hnext
  have hid : id < after.size := lt_of_mem_allEdges (List.mem_of_getElem? hedge)
  have hstep := h.forwards (forwardTarget_iff.mp hnext)
  refine ⟨(size_modify after id _).trans h.size, h.codes, fun s => ?_⟩
  rw [state_retarget hid]
  split
  · rename_i hsame
    subst hsame
    exact (h.states id).retarget hedge hstep
  · exact h.states s

-- ============================================================== results

variable {root : StateId} {ids : List StateId}

/-- Skipping forwarding states leads edges on, and changes nothing else. -/
theorem onward_skipForwarding (m : Machine) (root : StateId)
    (ids : List StateId) :
    Onward m (m.skipForwarding root ids).1 :=
  skipForwarding_keeps (keeps_onward m) (.refl m) root ids

/-- Only the edges of the root and of listed states are redirected. -/
theorem state_skipForwarding {s : StateId} (hs : s ∉ root :: ids) :
    (m.skipForwarding root ids).1.state s = m.state s := by
  have hkept : ∀ id ∈ root :: ids, KeepsAt id fun after => after.state s
      = m.state s := by
    intro id hid after index edge next h hedge _
    have hsize : id < after.size :=
      lt_of_mem_allEdges (List.mem_of_getElem? hedge)
    have hne : id ≠ s := fun hsame => hs (hsame ▸ hid)
    show (after.retarget id index next).state s = m.state s
    rw [state_retarget hsize, if_neg hne]
    exact h
  exact skipForwarding_keepsAt hkept rfl

/-- The root is moved by forwarding steps. -/
theorem root_skipForwarding (m : Machine) (root : StateId)
    (ids : List StateId) :
    Relation.ReflTransGen m.Forwards root (m.skipForwarding root ids).2 := by
  have honward := onward_skipForwarding m root ids
  refine forwardRoot_keeps
    (Q := fun s => Relation.ReflTransGen m.Forwards root s) _ .refl ?_
  intro id next hid hnext
  exact hid.trans (honward.forwards (forwardTarget_iff.mp hnext))

end Bytewise.Machine

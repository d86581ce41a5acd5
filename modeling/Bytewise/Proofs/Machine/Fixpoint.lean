/-
Skipping forwarding states, once and for all.

Whatever machine is given, edges only lead on, and only those of listed
states (`Onward`). Where no forwarding states lead around, the rounds come
to an end that is one: where no edge enters a forwarding state there is
nothing to redirect (`skipForwarding_of_settled`), and if what is listed is
all that the root leads to, what the new root leads to is listed too, so
skipping again from there finds the machine as it should be.
-/
import Bytewise.Proofs.Machine.Skipping

namespace Bytewise.Machine

variable {m : Machine} {id root : StateId} {ids : List StateId}

-- ====================================================== nothing to do

theorem redirect_of_settled (h : m.Settled m.Forwarding id) :
    m.redirect id = (m, false) := by
  rw [redirect_eq]
  refine List.foldlRecOn (motive := fun pair : Machine × Bool => pair
    = (m, false)) _ _ rfl ?_
  rintro _ rfl index _
  unfold redirectEdge
  cases hedge : (m.state id).allEdges[index]? with
  | none => rfl
  | some edge =>
      dsimp only
      rw [forwardTarget_eq_none.mpr (h edge (List.mem_of_getElem? hedge))]

theorem redirectAll_of_settled (h : ∀ s ∈ ids, m.Settled m.Forwarding s) :
    m.redirectAll ids = (m, []) := by
  unfold redirectAll
  refine List.foldlRecOn (motive := fun pair : Machine × List StateId => pair
    = (m, [])) _ _ rfl ?_
  rintro _ rfl id hid
  dsimp only
  rw [redirect_of_settled (h id hid)]
  rfl

theorem redirectRounds_of_settled (rounds : Nat)
    (h : ∀ s ∈ ids, m.Settled m.Forwarding s) :
    redirectRounds rounds m ids = m := by
  cases rounds with
  | zero => rfl
  | succ rounds =>
      cases ids with
      | nil => rfl
      | cons id ids =>
          show redirectRounds rounds (m.redirectAll (id :: ids)).1
            (m.redirectAll (id :: ids)).2 = m
          rw [redirectAll_of_settled h]
          cases rounds <;> rfl

theorem forwardRoot_of_not_forwarding (steps : Nat) (h : ¬ m.Forwarding root) :
    m.forwardRoot steps root = root := by
  cases steps with
  | zero => rfl
  | succ steps => rw [forwardRoot, forwardTarget_eq_none.mpr h]

/-- Where no listed state has an edge into a forwarding state, there is nothing
to skip. -/
theorem skipForwarding_of_settled
    (h : ∀ s ∈ root :: ids, m.Settled m.Forwarding s)
    (hroot : ¬ m.Forwarding root) : m.skipForwarding root ids = (m, root) := by
  have hrounds : redirectRounds (m.size + 1) m (ascending (root :: ids)) = m :=
    redirectRounds_of_settled _ fun s hs => h s (mem_ascending.mp hs)
  unfold skipForwarding
  rw [hrounds]
  exact congrArg (m, ·) (forwardRoot_of_not_forwarding _ hroot)

-- ============================================================== results

/-- Skipping forwarding states answers for every machine, and changes the
targets of edges of the root and of listed states at most, which lead on as the
machine forwarded. Where it did not forward around, no edge of these states
enters a forwarding state any more, nor is the root one, and if all that the
root leads to is listed, skipping again has nothing to do. -/
theorem skipForwarding_leads_on (m : Machine) (root : StateId)
    (ids : List StateId) :
    ∃ after entry, m.skipForwarding root ids = (after, entry)
      ∧ m.Onward after ∧ (∀ s, s ∉ root :: ids → after.state s = m.state s)
      ∧ Relation.ReflTransGen m.Forwards root entry
      ∧ ((∀ id, ¬ Relation.TransGen m.Forwards id id) →
        (∀ s ∈ root :: ids, ∀ edge ∈ (after.state s).allEdges,
          ¬ after.Forwarding edge.target)
          ∧ ¬ after.Forwarding entry
          ∧ (ids = m.enumerate root →
            after.skipForwarding entry (after.enumerate entry)
                = (after, entry))) := by
  refine ⟨_, _, rfl, onward_skipForwarding m root ids, fun s hs =>
    state_skipForwarding hs,
    root_skipForwarding m root ids, fun hacyclic => ?_⟩
  obtain ⟨rank, hcourse, hsmall⟩ :=
    exists_course hacyclic (fun id (_ : True) edge _ _ => trivial)
  obtain ⟨hend, hsettled, hentry⟩ :=
    hcourse.settled_skipForwarding hsmall root ids
  refine ⟨fun s hs edge hedge hforwards => ?_, hentry, fun hall => ?_⟩
  · exact hsettled s hs edge hedge ((hend.forwarding _).mp hforwards)
  · subst hall
    have hpair : m.skipForwarding root (m.enumerate root)
        = ((m.skipForwarding root (m.enumerate root)).1,
          (m.skipForwarding root (m.enumerate root)).2) := rfl
    have hlive := live_of_skipForwarding hacyclic hpair
    exact skipForwarding_of_settled (fun s hs => (hlive s hs).2)
      (hlive _ List.mem_cons_self).1

/-- A forwarding state before a branch, and two behind it. -/
def chained : Machine where
  states := #[
    { name := "n_start", nodeName := "start", kind := .empty,
      otherwise := some (.otherwise 1 true) },
    { name := "n_branch", nodeName := "branch", kind := .single,
      edges := [⟨some (.byte 97), 2, false, none⟩], otherwise :=
        some (.otherwise 1 false) },
    { name := "n_on", nodeName := "on", kind := .empty,
      otherwise := some (.otherwise 3 true) },
    { name := "n_over", nodeName := "over", kind := .empty,
      otherwise := some (.otherwise 4 true) },
    { name := "n_end", nodeName := "end", kind := .error 1 "end" }]

theorem chained_leads_on : (∀ id, ¬ Relation.TransGen chained.Forwards id id)
    ∧ ∃ after entry, chained.skipForwarding 0 (chained.enumerate 0)
      = (after, entry)
      ∧ ¬ after.Forwarding entry
      ∧ after.skipForwarding entry (after.enumerate entry)
          = (after, entry) := by
  have hascending : ∀ id next, chained.Forwards id next → id < next := by
    intro id next h
    have hall : ∀ id < 5, (chained.forwardTarget? id).all (id < ·) := by decide
    have hstep := hall id h.1.lt
    rw [forwardTarget_iff.mpr h] at hstep
    exact of_decide_eq_true hstep
  have hacyclic : ∀ id, ¬ Relation.TransGen chained.Forwards id id := by
    intro id hround
    have hless : Relation.TransGen (· < ·) id id :=
      Relation.TransGen.mono hascending _ _ hround
    rw [Relation.transGen_eq_self] at hless
    exact Nat.lt_irrefl id hless
  obtain ⟨after, entry, hrun, _, _, _, hends⟩ :=
    skipForwarding_leads_on chained 0 (chained.enumerate 0)
  obtain ⟨_, hentry, hagain⟩ := hends hacyclic
  exact ⟨hacyclic, after, entry, hrun, hentry, hagain rfl⟩

end Bytewise.Machine

/-
Walks with every number checked.

A walk of the library passes over edges to numbers outside the graph, and
ends because a measure does. Here it is run as a program that knows
neither: it stops at a number that is no node, whether an edge names it or
it waits, and it is given so many turns and no more. Such a program answers
what the walk does, with as many turns as there are nodes to take, if and
only if no edge on the way leads out of the graph.
-/
import Bytewise.Proofs.Exploration

namespace Bytewise.Exploration

-- =============================================================== program

/-- Marks the targets that are not marked yet, and lists them; stops at a
target that is no node. -/
def discoverChecked (seen : Array Bool) :
    List Nat → Option (Array Bool × List Nat)
  | [] => some (seen, [])
  | t :: targets =>
    if h : t < seen.size then
      if seen[t] then discoverChecked seen targets
      else (discoverChecked (seen.set t true) targets).map fun next =>
        (next.1, t :: next.2)
    else none

/-- Walks on for at most so many turns; stops at a number that is no node. -/
def walkChecked (targets : Nat → List Nat) (order : Order) :
    (turns : Nat) → (seen : Array Bool) →
    (waiting : List Nat) → (listed : Array Nat) → Option (Array Nat)
  | _, _, [], listed => some listed
  | 0, _, _ :: _, _ => none
  | turns + 1, seen, id :: waiting, listed =>
    if id < seen.size then
      (discoverChecked seen (targets id)).bind fun next =>
        walkChecked targets order turns next.1 (order.push waiting next.2)
          (listed ++ next.2)
    else none

/-- `fromRoot` with every number checked, and a turn for every node. -/
def fromRootChecked (size : Nat) (targets : Nat → List Nat) (order : Order)
    (root : Nat) :
    Option (List Nat) :=
  if root < size then
    (walkChecked targets order size
      ((Array.replicate size false).setIfInBounds root true) [root]
      #[root]).map (·.toList)
  else none

/-- `afterRoot` with every number checked, and a turn for every node and one
for `root`. -/
def afterRootChecked (size : Nat) (targets : Nat → List Nat) (order : Order)
    (root : Nat) :
    Option (List Nat) :=
  (walkChecked targets order (size + 1) (Array.replicate size false) [root]
    #[]).map (·.toList)

-- =============================================================== answers

variable {size root turns : Nat} {targets : Nat → List Nat} {order : Order}

/-- What is discovered where all targets are nodes is discovered with
checks. -/
theorem discoverChecked_eq_some_iff {seen : Array Bool} {ts : List Nat}
    {next : Array Bool × List Nat} :
    discoverChecked seen ts = some next ↔ (∀ t ∈ ts, t < seen.size)
        ∧ discover seen ts = next := by
  induction ts generalizing seen next with
  | nil => simp [discoverChecked, discover]
  | cons t ts ih =>
      by_cases ht : t < seen.size
      · have hall : (∀ u ∈ t :: ts, u < seen.size) ↔ ∀ u ∈ ts,
          u < seen.size := by simp [ht]
        rw [hall]
        cases hmark : seen.getD t false with
        | true =>
            rw [discover_marked ht hmark, ← ih, discoverChecked, dif_pos ht,
              if_pos (by rw [← mark_eq ht, hmark])]
        | false =>
            have hsize : (seen.set t true).size = seen.size := by simp
            rw [discover_new ht hmark, discoverChecked, dif_pos ht,
              if_neg (by rw [← mark_eq ht, hmark]; decide),
                Option.map_eq_some_iff]
            constructor
            · rintro ⟨rest, hrest, rfl⟩
              obtain ⟨hinside, rfl⟩ := ih.mp hrest
              exact ⟨hsize ▸ hinside, rfl⟩
            · rintro ⟨hinside, rfl⟩
              exact ⟨_, ih.mpr ⟨hsize.symm ▸ hinside, rfl⟩, rfl⟩
      · rw [discoverChecked, dif_neg ht]
        simp only [reduceCtorEq, false_iff]
        exact fun h => ht (h.1 t List.mem_cons_self)

/-- The edges from node to number. -/
def Names (targets : Nat → List Nat) (a b : Nat) : Prop :=
  b ∈ targets a

/-- With turns enough, and no edge on the way that leads out of the graph, the
program answers. -/
theorem walkChecked_eq {seen : Array Bool} {waiting : List Nat}
    {listed : Array Nat}
    (hinside : ∀ w ∈ waiting, ∀ v, Relation.ReflTransGen (Names targets) w v →
      v < seen.size)
    (hturns : seen.count false + waiting.length ≤ turns) :
    walkChecked targets order turns seen waiting listed
      = some (walk targets order seen waiting listed) := by
  fun_induction walkChecked targets order turns seen waiting listed with
  | case1 turns seen listed => rw [walk]
  | case2 seen id waiting listed => exact absurd hturns (by simp)
  | case3 turns seen id waiting listed hid ih =>
      have hreached := hinside id List.mem_cons_self
      have hsize : (discover seen (targets id)).1.size = seen.size :=
        size_discover _ _
      have hnext : discoverChecked seen (targets id)
          = some (discover seen (targets id)) :=
        discoverChecked_eq_some_iff.mpr
          ⟨fun t ht => hreached t (.single ht), rfl⟩
      rw [hnext, Option.bind_some, walk]
      apply ih
      · rw [hsize]
        intro w hw
        rcases mem_push.mp hw with hw | hw
        · exact hinside w (List.mem_cons_of_mem id hw)
        · have hedge := (discover_lt seen (targets id) hw).1
          exact fun v hv => hreached v (hv.head hedge)
      · have hcount := count_discover seen (targets id)
        have hlength :
            (order.push waiting (discover seen (targets id)).2).length
            = waiting.length + (discover seen (targets id)).2.length := by
          cases order <;> simp [Order.push, Nat.add_comm]
        simp only [List.length_cons] at hturns
        omega
  | case4 turns seen id waiting listed hid =>
      exact absurd (hinside id List.mem_cons_self id .refl) hid

/-- Where the program answers, it answers what the walk does, and the nodes
that it has taken are nodes of the graph with edges to nodes of the graph. -/
theorem walkChecked_spec {seen : Array Bool} {waiting : List Nat}
    {listed all : Array Nat}
    (hok : walkChecked targets order turns seen waiting listed = some all) :
    all = walk targets order seen waiting listed
      ∧ ∀ x, (x ∈ waiting ∨ (x ∈ all ∧ x ∉ listed)) →
        x < seen.size ∧ ∀ t ∈ targets x, t < seen.size := by
  fun_induction walkChecked targets order turns seen waiting listed with
  | case1 turns seen listed =>
      obtain rfl := Option.some.inj hok
      simp [walk]
  | case2 => cases hok
  | case3 turns seen id waiting listed hid ih =>
      obtain ⟨next, hnext, hrest⟩ := Option.bind_eq_some_iff.mp hok
      obtain ⟨htargets, rfl⟩ := discoverChecked_eq_some_iff.mp hnext
      obtain ⟨hall, hinside⟩ := ih _ hrest
      rw [size_discover] at hinside
      refine ⟨by rw [walk]; exact hall, fun x hx => ?_⟩
      by_cases hxid : x = id
      · subst hxid
        exact ⟨hid, htargets⟩
      · apply hinside
        rw [mem_push]
        rcases hx with hx | ⟨hx, hnot⟩
        · exact Or.inl (Or.inl ((List.mem_cons.mp hx).resolve_left hxid))
        · by_cases hfound : x ∈ (discover seen (targets id)).2
          · exact Or.inl (Or.inr hfound)
          · exact Or.inr
              ⟨hx, fun hmem => (mem_appendList.mp hmem).elim hnot hfound⟩
  | case4 => cases hok

/-- Where all that is listed waits, the program answers if and only if no edge
on the way leads out of the graph. -/
theorem walkChecked_eq_some_iff {seen : Array Bool} {waiting : List Nat}
    {listed : Array Nat} (hm : Marks seen listed.toList)
    (hwaits : ∀ v ∈ listed, v ∈ waiting)
    (hturns : seen.count false + waiting.length ≤ turns) :
    walkChecked targets order turns seen waiting listed
        = some (walk targets order seen waiting listed)
      ↔ ∀ w ∈ waiting, ∀ v, Relation.ReflTransGen (Names targets) w v →
          v < seen.size := by
  refine ⟨fun hok w hw v hv => ?_, fun hinside => walkChecked_eq
    hinside hturns⟩
  obtain ⟨-, hinside⟩ := walkChecked_spec hok
  have htaken : ∀ x,
      (x ∈ waiting ∨ x ∈ walk targets order seen waiting listed) →
      x ∈ waiting
          ∨ (x ∈ walk targets order seen waiting listed ∧ x ∉ listed) := by
    intro x hx
    by_cases hlisted : x ∈ listed
    · exact Or.inl (hwaits x hlisted)
    · exact hx.imp id fun hx => ⟨hx, hlisted⟩
  have hboth : v < seen.size
      ∧ (v ∈ waiting ∨ v ∈ walk targets order seen waiting listed) := by
    induction hv with
    | refl => exact ⟨(hinside w (Or.inl hw)).1, Or.inl hw⟩
    | @tail x y _ hxy ih =>
        have hx := htaken x ih.2
        have hy := (hinside x hx).2 y hxy
        exact ⟨hy, Or.inr (walk_closed hm hxy hy hx)⟩
  exact hboth.1

private theorem map_toList_eq_some_iff {answer : Option (Array Nat)}
    {all : Array Nat} :
    answer.map (·.toList) = some all.toList ↔ answer = some all := by
  simp [Option.map_eq_some_iff, Array.toList_inj]

/-- A walk from `root` passes its checks in a turn for every node if and only
if `root` and all that it leads to are nodes. -/
theorem fromRootChecked_eq_some_iff :
    fromRootChecked size targets order root
      = some (fromRoot size targets order root)
      ↔ ∀ v, Relation.ReflTransGen (Names targets) root v → v < size := by
  unfold fromRootChecked fromRoot
  by_cases hroot : root < size
  · have hsize : ((Array.replicate size false).setIfInBounds root true).size
      = size := by simp
    have hcount : ((Array.replicate size false).setIfInBounds root true).count
        false + [root].length ≤ size := by
      have hroot' : root < (Array.replicate size false).size := by
        simpa using hroot
      rw [Array.setIfInBounds, dif_pos hroot', Array.count_set]
      simp
      omega
    have hcheck := @walkChecked_eq_some_iff size targets order _ [root] #[root]
      (marks_root size root) (by simp) hcount
    rw [hsize, List.forall_mem_singleton] at hcheck
    rw [if_pos hroot, map_toList_eq_some_iff, hcheck]
  · rw [if_neg hroot]
    simp only [reduceCtorEq, false_iff]
    exact fun h => hroot (h root .refl)

/-- A walk after `root` passes its checks in a turn for every node and one for
`root` if and only if `root` and all that it leads to are nodes. -/
theorem afterRootChecked_eq_some_iff :
    afterRootChecked size targets order root
      = some (afterRoot size targets order root)
      ↔ ∀ v, Relation.ReflTransGen (Names targets) root v → v < size := by
  have hsize : (Array.replicate size false).size = size := by simp
  have hcount : (Array.replicate size false).count false + [root].length
    ≤ size + 1 := by simp
  have hcheck := @walkChecked_eq_some_iff (size + 1) targets order _ [root] #[]
    (marks_none size) (by simp) hcount
  rw [hsize, List.forall_mem_singleton] at hcheck
  unfold afterRootChecked afterRoot
  rw [map_toList_eq_some_iff, hcheck]

end Bytewise.Exploration

/-
Walks of a finite graph whose nodes are numbered from zero.

One walk serves every traversal of the library that lists nodes in the
order of their discovery: a node is marked when some edge first names it,
and then waits for its own edges to be looked at. Only the order of
waiting differs: first come first served, or last come first served.

Every step takes one node off the waiting list and moves as many from
unmarked to waiting as it discovers, so unmarked and waiting nodes
together lose one: that is the measure. Edges to numbers outside the graph
are ignored.
-/

namespace Bytewise.Exploration

/-- In which order discovered nodes have their edges looked at. -/
inductive Order where
  /-- First come, first served: the walk is breadth first. -/
  | queue
  /-- Last come, first served. -/
  | stack
deriving DecidableEq, Repr

/-- Puts newly discovered nodes to the waiting ones. -/
def Order.push : Order → (waiting found : List Nat) → List Nat
  | queue, waiting, found => waiting ++ found
  | stack, waiting, found => found.reverse ++ waiting

/-- Marks the targets that are not marked yet, and lists them in order. -/
def discover (seen : Array Bool) : List Nat → Array Bool × List Nat
  | [] => (seen, [])
  | t :: targets =>
    if h : t < seen.size then
      if seen[t] then discover seen targets
      else
        let (seen, found) := discover (seen.set t true) targets
        (seen, t :: found)
    else discover seen targets

/-- What is discovered is no longer unmarked. -/
theorem count_discover (seen : Array Bool) (targets : List Nat) :
    (discover seen targets).1.count false + (discover seen targets).2.length
      = seen.count false := by
  induction targets generalizing seen with
  | nil => simp [discover]
  | cons t targets ih =>
    unfold discover
    split
    · rename_i h
      split
      · exact ih seen
      · rename_i marked
        have unmarked : seen[t] = false := by simpa using marked
        have present : 0 < seen.count false :=
          Array.count_pos_iff.mpr (unmarked ▸ Array.getElem_mem h)
        have fewer : (seen.set t true).count false = seen.count false - 1 := by
          simp [Array.count_set h, unmarked]
        have rest := ih (seen.set t true)
        simp only [List.length_cons]
        omega
    · exact ih seen

/-- Walks on until no node waits. `listed` are the nodes discovered so far. -/
def walk (targets : Nat → List Nat) (order : Order) (seen : Array Bool)
    (waiting : List Nat) (listed : Array Nat) : Array Nat :=
  match waiting with
  | [] => listed
  | id :: waiting =>
    let next := discover seen (targets id)
    walk targets order next.1 (order.push waiting next.2) (listed ++ next.2)
termination_by seen.count false + waiting.length
decreasing_by
  have := count_discover seen (targets id)
  cases order <;> simp [Order.push] <;> omega

/-- The nodes that `root` leads to in any number of steps, `root` first, in the
order of their discovery, out of `size` nodes. -/
def fromRoot (size : Nat) (targets : Nat → List Nat) (order : Order)
    (root : Nat) : List Nat :=
  (walk targets order ((Array.replicate size false).setIfInBounds root true)
    [root] #[root]).toList

/-- The nodes that `root` leads to in at least one step, in the order of their
discovery, out of `size` nodes. -/
def afterRoot (size : Nat) (targets : Nat → List Nat) (order : Order)
    (root : Nat) : List Nat :=
  (walk targets order (Array.replicate size false) [root] #[]).toList

end Bytewise.Exploration

/-
Nearest first: in which order a queue lists nodes.

The distance of a node is the number of edges on a shortest path to it.
At every turn of a walk with a queue the nodes listed so far are in order
of their distances, and those that wait are at most one edge farther than
the first of them (`Frontier`). What a turn finds is exactly one edge
farther than the node whose edges it looks at: had it a shorter path, the
node before it on that path would be nearer than all that wait, so its
edges were looked at long ago.
-/
import Mathlib.Order.Lattice.Nat
import Bytewise.Proofs.Exploration

namespace Bytewise.Exploration

-- ============================================================ distances

section Distance

variable {r : Nat → Nat → Prop} {a b c n : Nat}

/-- A path of so many edges. -/
inductive Path (r : Nat → Nat → Prop) (a : Nat) : Nat → Nat → Prop where
  | refl : Path r a 0 a
  | tail {n b c : Nat} (path : Path r a n b)
      (edge : r b c) : Path r a (n + 1) c

/-- The number of edges on a shortest path. -/
noncomputable def distance (r : Nat → Nat → Prop) (a b : Nat) : Nat :=
  sInf {n | Path r a n b}

theorem exists_path (h : Relation.ReflTransGen r a b) : ∃ n, Path r a n b := by
  induction h with
  | refl => exact ⟨0, .refl⟩
  | tail _ hbc ih =>
      obtain ⟨n, hpath⟩ := ih
      exact ⟨n + 1, hpath.tail hbc⟩

theorem Path.reaches (h : Path r a n b) : Relation.ReflTransGen r a b := by
  induction h with
  | refl => exact .refl
  | tail _ edge ih => exact ih.tail edge

theorem Path.distance_le (h : Path r a n b) : distance r a b ≤ n :=
  Nat.sInf_le h

/-- What is reached is reached along a shortest path. -/
theorem path_distance (h : Relation.ReflTransGen r a b) :
    Path r a (distance r a b) b :=
  Nat.sInf_mem (exists_path h)

/-- An edge leads at most one farther. -/
theorem distance_edge_le (h : Relation.ReflTransGen r a b) (hbc : r b c) :
    distance r a c ≤ distance r a b + 1 :=
  ((path_distance h).tail hbc).distance_le

/-- What is reached by one edge or more is reached by so many. -/
theorem transGen_iff_path : Relation.TransGen r a b
    ↔ ∃ n, Path r a (n + 1) b := by
  rw [Relation.TransGen.tail'_iff]
  constructor
  · rintro ⟨x, hpath, hedge⟩
    exact ⟨distance r a x, (path_distance hpath).tail hedge⟩
  · rintro ⟨n, hpath⟩
    cases hpath with
    | tail path edge => exact ⟨_, path.reaches, edge⟩

end Distance

-- ============================================================= frontier

variable {r : Nat → Nat → Prop} {root x v : Nat}
  {done waiting found : List Nat}

/-- What is listed, at a turn of a walk with a queue: nodes whose edges have
been looked at and behind them those that wait. All are reached, in order of
their distances, and no edge leads from the former to what is not listed. -/
structure Frontier (r : Nat → Nat → Prop) (root : Nat)
    (done waiting : List Nat) : Prop where
  begun : root ∈ done ++ waiting
  reached : ∀ v ∈ done ++ waiting, Relation.ReflTransGen r root v
  closed : ∀ a ∈ done, ∀ b, r a b → b ∈ done ++ waiting
  nearest : (done ++ waiting).Pairwise fun a b => distance r root a
    ≤ distance r root b
  close : waiting.Pairwise fun a b => distance r root b ≤ distance r root a + 1

theorem frontier_start : Frontier r root [] [root] where
  begun := List.mem_cons_self
  reached _ hv := List.mem_singleton.mp hv ▸ .refl
  closed _ ha := absurd ha List.not_mem_nil
  nearest := List.pairwise_singleton _ _
  close := List.pairwise_singleton _ _

/-- Whatever is not farther than the first node that waits is listed. -/
theorem Frontier.mem_of_path (h : Frontier r root done (x :: waiting))
    {n : Nat} (hpath : Path r root n v) (hn : n ≤ distance r root x) :
    v ∈ done ++ x :: waiting := by
  induction hpath with
  | refl => exact h.begun
  | @tail n b c path edge ih =>
      rcases List.mem_append.mp (ih (by omega)) with hdone | hwaits
      · exact h.closed b hdone c edge
      · -- the node before it is too near to wait
        have hnear := path.distance_le
        have hfirst : distance r root x ≤ distance r root b := by
          have hwaiting := (List.pairwise_append.mp h.nearest).2.1
          rcases List.mem_cons.mp hwaits with rfl | hwaits
          · exact Nat.le_refl _
          · exact (List.pairwise_cons.mp hwaiting).1 b hwaits
        omega

/-- What a turn finds is one edge farther. -/
theorem Frontier.distance_found (h : Frontier r root done (x :: waiting))
    (hedge : r x v) (hnew : v ∉ done ++ x :: waiting) :
    distance r root v = distance r root x + 1 := by
  have hx : Relation.ReflTransGen r root x := h.reached x (by simp)
  have hle := distance_edge_le hx hedge
  have hgt : ¬ distance r root v ≤ distance r root x :=
    fun hle => hnew (h.mem_of_path (path_distance (hx.tail hedge)) hle)
  omega

/-- A turn keeps the order. -/
theorem Frontier.turn (h : Frontier r root done (x :: waiting))
    (hfound : ∀ v, v ∈ found ↔ r x v ∧ v ∉ done ++ x :: waiting) :
    Frontier r root (done ++ [x]) (waiting ++ found) := by
  have hlisted : (done ++ [x]) ++ (waiting ++ found) = (done ++ x :: waiting)
    ++ found := by simp
  have hdistance : ∀ v ∈ found, distance r root v = distance r root x + 1 :=
    fun v hv =>
    h.distance_found ((hfound v).mp hv).1 ((hfound v).mp hv).2
  have hx : Relation.ReflTransGen r root x := h.reached x (by simp)
  obtain ⟨-, hwaiting, hcross⟩ := List.pairwise_append.mp h.nearest
  obtain ⟨hfirst, -⟩ := List.pairwise_cons.mp hwaiting
  obtain ⟨hnext, hclose⟩ := List.pairwise_cons.mp h.close
  have hequal : found.Pairwise fun a b => distance r root a
      = distance r root b := by
    refine List.pairwise_of_forall_mem_list fun a ha b hb => ?_
    rw [hdistance a ha, hdistance b hb]
  constructor
  case begun =>
    rw [hlisted]
    exact List.mem_append_left found h.begun
  case reached =>
    rw [hlisted]
    intro v hv
    rcases List.mem_append.mp hv with hv | hv
    · exact h.reached v hv
    · exact hx.tail ((hfound v).mp hv).1
  case closed =>
    rw [hlisted]
    intro a ha b hab
    rcases List.mem_append.mp ha with ha | ha
    · exact List.mem_append_left found (h.closed a ha b hab)
    · rw [List.mem_singleton.mp ha] at hab
      by_cases hb : b ∈ done ++ x :: waiting
      · exact List.mem_append_left found hb
      · exact List.mem_append_right _ ((hfound b).mpr ⟨hab, hb⟩)
  case nearest =>
    rw [hlisted]
    refine List.pairwise_append.mpr
      ⟨h.nearest, hequal.imp Nat.le_of_eq, fun v hv u hu => ?_⟩
    rw [hdistance u hu]
    rcases List.mem_append.mp hv with hv | hv
    · exact Nat.le_succ_of_le (hcross v hv x List.mem_cons_self)
    · rcases List.mem_cons.mp hv with rfl | hv
      · exact Nat.le_succ _
      · exact hnext v hv
  case close =>
    refine List.pairwise_append.mpr
      ⟨hclose, hequal.imp fun hab => ?_, fun v hv u hu => ?_⟩
    · rw [hab]
      exact Nat.le_succ _
    · rw [hdistance u hu]
      exact Nat.succ_le_succ (hfirst v hv)

-- ================================================================ walks

variable {size : Nat} {targets : Nat → List Nat}

/-- A turn finds the targets that are not listed yet. -/
theorem Marks.mem_found {seen : Array Bool} {listed : List Nat}
    (hm : Marks seen listed) :
    v ∈ (Exploration.discover seen (targets x)).2 ↔ Edge seen.size targets x v
        ∧ v ∉ listed := by
  constructor
  · intro hv
    obtain ⟨hmem, hlt⟩ := discover_lt seen (targets x) hv
    have hfree := ((discover_spec seen (targets x) hlt).2.mp hv).2
    refine ⟨⟨hmem, hlt⟩, fun hlisted => ?_⟩
    rw [(hm v hlt).mpr hlisted] at hfree
    cases hfree
  · rintro ⟨⟨hmem, hlt⟩, hnew⟩
    refine (discover_spec seen (targets x) hlt).2.mpr ⟨hmem, ?_⟩
    exact Bool.eq_false_of_not_eq_true fun hmark => hnew ((hm v hlt).mp hmark)

/-- A walk with a queue keeps its order to the end. -/
theorem frontier_walk {seen : Array Bool} {listed : Array Nat}
    (hm : Marks seen listed.toList) (hlisted : listed.toList = done ++ waiting)
    (h : Frontier (Edge seen.size targets) root done waiting) :
    Frontier (Edge seen.size targets) root
        (walk targets .queue seen waiting listed).toList [] := by
  fun_induction walk targets .queue seen waiting listed generalizing done with
  | case1 seen listed =>
      rw [hlisted, List.append_nil]
      exact h
  | case2 seen listed id waiting next =>
      rename_i ih
      have hsize : next.1.size = seen.size := size_discover seen (targets id)
      rw [hsize] at ih
      refine ih ?_ ?_ (h.turn fun v => ?_)
      · rw [Array.toList_appendList]
        exact hm.discover (targets id)
      · rw [Array.toList_appendList, hlisted]
        show (done ++ id :: waiting) ++ next.2 = (done ++ [id])
          ++ (waiting ++ next.2)
        simp
      · rw [← hlisted]
        exact hm.mem_found

/-- A walk with a queue lists nearer nodes before farther ones. -/
theorem nearest_fromRoot (size : Nat) (targets : Nat → List Nat) (root : Nat) :
    (fromRoot size targets .queue root).Pairwise fun a b =>
      distance (Edge size targets) root a ≤ distance (Edge size targets)
          root b := by
  have hsize : ((Array.replicate size false).setIfInBounds root true).size
    = size := by simp
  have hwalk := frontier_walk (marks_root size root)
    (List.nil_append [root]).symm
    (frontier_start (r := Edge _ targets))
  rw [hsize] at hwalk
  have hnearest := hwalk.nearest
  rwa [List.append_nil] at hnearest

end Bytewise.Exploration

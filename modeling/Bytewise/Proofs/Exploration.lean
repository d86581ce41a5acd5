/-
What a walk lists: exactly the nodes it can reach.

One invariant carries the proof: a node is marked if and only if it is
listed. Completeness is read off backwards: when nothing waits any more,
the targets of every node that has waited are listed, so the list is
closed under edges.
-/
import Mathlib.Logic.Relation
import Bytewise.Exploration

namespace Bytewise.Exploration

/-- An edge between nodes that are there. -/
def Edge (size : Nat) (targets : Nat → List Nat) (a b : Nat) : Prop :=
  b ∈ targets a ∧ b < size

/-- A node is marked if and only if it is listed. -/
def Marks (seen : Array Bool) (listed : List Nat) : Prop :=
  ∀ v, v < seen.size → (seen.getD v false = true ↔ v ∈ listed)

-- ========================================================= discovery

theorem size_discover (seen : Array Bool) (ts : List Nat) :
    (discover seen ts).1.size = seen.size := by
  induction ts generalizing seen with
  | nil => rfl
  | cons t ts ih =>
      unfold discover
      split
      · split
        · exact ih seen
        · exact (ih _).trans (by simp)
      · exact ih seen

/-- The mark of a node that is there. -/
theorem mark_eq {seen : Array Bool} {t : Nat} (ht : t < seen.size) :
    seen.getD t false = seen[t] := by
  simp [Array.getD, ht]

/-- Marking one node marks that node. -/
theorem mark_set {seen : Array Bool} {t : Nat} (ht : t < seen.size) (v : Nat) :
    (seen.set t true).getD v false = if v = t then
        true else seen.getD v false := by
  by_cases hvt : v = t
  · subst hvt
    simp [Array.getD, ht]
  · by_cases hv : v < seen.size
    · simp [Array.getD, hv, hvt, Ne.symm hvt]
    · simp [Array.getD, hv, hvt]

theorem discover_marked {seen : Array Bool} {t : Nat} (ht : t < seen.size)
    (hmarked : seen.getD t false = true) (ts : List Nat) :
    discover seen (t :: ts) = discover seen ts := by
  rw [mark_eq ht] at hmarked
  rw [discover, dif_pos ht, if_pos hmarked]

/-- What is new is marked and listed. -/
theorem discover_new {seen : Array Bool} {t : Nat} (ht : t < seen.size)
    (hnew : seen.getD t false = false) (ts : List Nat) :
    discover seen (t :: ts)
      = ((discover (seen.set t true) ts).1,
          t :: (discover (seen.set t true) ts).2) := by
  rw [mark_eq ht] at hnew
  rw [discover, dif_pos ht, if_neg (by rw [hnew]; decide)]

/-- What lies outside is passed over. -/
theorem discover_outside {seen : Array Bool} {t : Nat} (ht : ¬ t < seen.size)
    (ts : List Nat) : discover seen (t :: ts) = discover seen ts := by
  rw [discover, dif_neg ht]

/-- What is marked after a discovery, and what the discovery finds. -/
theorem discover_spec (seen : Array Bool) (ts : List Nat) {v : Nat}
    (hv : v < seen.size) :
    ((discover seen ts).1.getD v false = true ↔ seen.getD v false = true
      ∨ v ∈ ts)
      ∧ (v ∈ (discover seen ts).2 ↔ v ∈ ts ∧ seen.getD v false = false) := by
  induction ts generalizing seen with
  | nil =>
      simp only [discover, List.not_mem_nil, or_false, false_and, and_self]
  | cons t ts ih =>
      rw [List.mem_cons]
      by_cases ht : t < seen.size
      · cases hmark : seen.getD t false with
        | true =>
            obtain ⟨hseen, hfound⟩ := ih seen hv
            rw [discover_marked ht hmark, hseen, hfound]
            by_cases hvt : v = t
            · subst hvt
              simp only [hmark, true_or, Bool.true_eq_false,
                and_false, and_self]
            · simp only [hvt, false_or, and_self]
        | false =>
            obtain ⟨hseen, hfound⟩ := ih (seen.set t true) (by simpa using hv)
            rw [mark_set ht] at hseen hfound
            rw [discover_new ht hmark, hseen, List.mem_cons, hfound]
            by_cases hvt : v = t
            · subst hvt
              simp only [hmark, if_true, true_or, or_true, and_self]
            · simp only [hvt, if_false, false_or, and_self]
      · obtain ⟨hseen, hfound⟩ := ih seen hv
        have hvt : v ≠ t := fun h => ht (h ▸ hv)
        rw [discover_outside ht, hseen, hfound]
        simp only [hvt, false_or, and_self]

/-- A discovery finds nodes that are there. -/
theorem discover_lt (seen : Array Bool) (ts : List Nat) {v : Nat}
    (hv : v ∈ (discover seen ts).2) : v ∈ ts ∧ v < seen.size := by
  induction ts generalizing seen with
  | nil => cases hv
  | cons t ts ih =>
      unfold discover at hv
      split at hv
      · rename_i ht
        split at hv
        · obtain ⟨hmem, hlt⟩ := ih seen hv
          exact ⟨List.mem_cons_of_mem t hmem, hlt⟩
        · rcases List.mem_cons.mp hv with rfl | hv
          · exact ⟨List.mem_cons_self, ht⟩
          · obtain ⟨hmem, hlt⟩ := ih _ hv
            exact ⟨List.mem_cons_of_mem t hmem, by simpa using hlt⟩
      · obtain ⟨hmem, hlt⟩ := ih seen hv
        exact ⟨List.mem_cons_of_mem t hmem, hlt⟩

/-- A discovery finds no node twice. -/
theorem nodup_discover (seen : Array Bool) (ts : List Nat) :
    (discover seen ts).2.Nodup := by
  induction ts generalizing seen with
  | nil => exact List.nodup_nil
  | cons t ts ih =>
      by_cases ht : t < seen.size
      · cases hmark : seen.getD t false with
        | true =>
            rw [discover_marked ht hmark]
            exact ih seen
        | false =>
            rw [discover_new ht hmark]
            refine List.nodup_cons.mpr ⟨fun hmem => ?_, ih _⟩
            have ht' : t < (seen.set t true).size := by simpa using ht
            have hfree := ((discover_spec _ ts ht').2.mp hmem).2
            rw [mark_set ht, if_pos rfl] at hfree
            cases hfree
      · rw [discover_outside ht]
        exact ih seen

/-- Marks stand for all that was listed. -/
theorem Marks.discover {seen : Array Bool} {listed : List Nat}
    (h : Marks seen listed) (ts : List Nat) :
    Marks (Exploration.discover seen ts).1
        (listed ++ (Exploration.discover seen ts).2) := by
  intro v hv
  rw [size_discover] at hv
  obtain ⟨hseen, hfound⟩ := discover_spec seen ts hv
  rw [hseen, List.mem_append, hfound, ← h v hv]
  cases seen.getD v false <;> simp

-- ============================================================== walks

variable {size : Nat} {targets : Nat → List Nat} {order : Order}

/-- The order of waiting does not matter to who waits. -/
theorem mem_push {waiting found : List Nat} {v : Nat} :
    v ∈ order.push waiting found ↔ v ∈ waiting ∨ v ∈ found := by
  cases order with
  | queue => simp [Order.push]
  | stack => simp [Order.push, or_comm]

theorem mem_appendList {listed : Array Nat} {found : List Nat} {v : Nat} :
    v ∈ listed ++ found ↔ v ∈ listed ∨ v ∈ found := by
  rw [← Array.mem_toList_iff, Array.toList_appendList, List.mem_append,
    Array.mem_toList_iff]

/-- What is listed stays listed. -/
theorem mem_walk_of_listed {seen : Array Bool} {waiting : List Nat}
    {listed : Array Nat} {v : Nat}
    (hv : v ∈ listed) : v ∈ walk targets order seen waiting listed := by
  fun_induction walk targets order seen waiting listed with
  | case1 => exact hv
  | case2 seen listed id waiting next ih =>
      exact ih (mem_appendList.mpr (Or.inl hv))

/-- The targets of nodes that wait, and of nodes listed later, are listed in
the end. -/
theorem walk_closed {seen : Array Bool} {waiting : List Nat}
    {listed : Array Nat} (hm : Marks seen listed.toList) {x t : Nat}
    (ht : t ∈ targets x) (hlt : t < seen.size)
    (hx : x ∈ waiting
      ∨ (x ∈ walk targets order seen waiting listed ∧ x ∉ listed)) :
    t ∈ walk targets order seen waiting listed := by
  fun_induction walk targets order seen waiting listed with
  | case1 seen listed =>
      rcases hx with hx | ⟨hx, hnot⟩
      · cases hx
      · exact absurd hx hnot
  | case2 seen listed id waiting next ih =>
      have hm' : Marks next.1 (listed ++ next.2).toList := by
        rw [Array.toList_appendList]
        exact hm.discover (targets id)
      have hsize : next.1.size = seen.size := size_discover seen (targets id)
      by_cases hid : x = id
      · subst hid
        apply mem_walk_of_listed
        have := (hm' t (by rw [hsize]; exact hlt)).mp
          (((discover_spec seen (targets x) hlt).1).mpr (Or.inr ht))
        exact Array.mem_toList_iff.mp this
      · refine ih hm' (by rw [hsize]; exact hlt) ?_
        rw [mem_push]
        rcases hx with hx | ⟨hx, hnot⟩
        · rcases List.mem_cons.mp hx with rfl | hx
          · exact absurd rfl hid
          · exact Or.inl (Or.inl hx)
        · by_cases hfound : x ∈ next.2
          · exact Or.inl (Or.inr hfound)
          · refine Or.inr ⟨hx, fun hmem => ?_⟩
            exact (mem_appendList.mp hmem).elim hnot hfound

/-- Every node listed in the end was listed already, or a waiting node leads to
it. -/
theorem walk_sound {seen : Array Bool} {waiting : List Nat}
    {listed : Array Nat} {v : Nat}
    (hv : v ∈ walk targets order seen waiting listed) :
    v ∈ listed ∨ ∃ w ∈ waiting, Relation.TransGen (Edge seen.size targets)
        w v := by
  fun_induction walk targets order seen waiting listed with
  | case1 => exact Or.inl hv
  | case2 seen listed id waiting next ih =>
      have hsize : next.1.size = seen.size := size_discover seen (targets id)
      have hfound : ∀ u ∈ next.2, Edge seen.size targets id u :=
        fun u hu => discover_lt seen (targets id) hu
      rw [hsize] at ih
      rcases ih hv with hv | ⟨w, hw, hpath⟩
      · rcases mem_appendList.mp hv with hv | hv
        · exact Or.inl hv
        · exact Or.inr ⟨id, List.mem_cons_self, .single (hfound v hv)⟩
      · rcases mem_push.mp hw with hw | hw
        · exact Or.inr ⟨w, List.mem_cons_of_mem id hw, hpath⟩
        · exact Or.inr ⟨id, List.mem_cons_self, .head (hfound w hw) hpath⟩

/-- A walk lists no node twice. -/
theorem nodup_walk {seen : Array Bool} {waiting : List Nat}
    {listed : Array Nat} (hm : Marks seen listed.toList)
    (hl : listed.toList.Nodup) :
    (walk targets order seen waiting listed).toList.Nodup := by
  fun_induction walk targets order seen waiting listed with
  | case1 => exact hl
  | case2 seen listed id waiting next ih =>
      rw [Array.toList_appendList] at ih
      refine ih (hm.discover (targets id))
        (List.nodup_append.mpr
          ⟨hl, nodup_discover _ _, fun v hv u hu heq => ?_⟩)
      subst heq
      have hlt := (discover_lt seen (targets id) hu).2
      have hfree := ((discover_spec seen (targets id) hlt).2.mp hu).2
      rw [(hm v hlt).mpr hv] at hfree
      cases hfree

/-- What is listed stays in its place. -/
theorem prefix_walk {seen : Array Bool} {waiting : List Nat}
    {listed : Array Nat} :
    listed.toList <+: (walk targets order seen waiting listed).toList := by
  fun_induction walk targets order seen waiting listed with
  | case1 => exact List.prefix_rfl
  | case2 seen listed id waiting next ih =>
      rw [Array.toList_appendList] at ih
      exact (List.prefix_append listed.toList next.2).trans ih

/-- A walk lists as many nodes as it marks. -/
theorem size_walk_le {seen : Array Bool} {waiting : List Nat}
    {listed : Array Nat} :
    (walk targets order seen waiting listed).size ≤ listed.size + seen.count
        false := by
  fun_induction walk targets order seen waiting listed with
  | case1 => exact Nat.le_add_right _ _
  | case2 seen listed id waiting next ih =>
      have hcount : next.1.count false + next.2.length = seen.count false :=
        count_discover seen (targets id)
      have hsize : (listed ++ next.2).size = listed.size + next.2.length := by
        rw [← Array.length_toList, Array.toList_appendList, List.length_append,
          Array.length_toList]
      omega

/-- A walk from `root` lists no more nodes than there are, `root` apart. -/
theorem length_fromRoot_le (root : Nat) :
    (fromRoot size targets order root).length ≤ size + 1 := by
  have hcount : ((Array.replicate size false).setIfInBounds root true).count
      false ≤ ((Array.replicate size false).setIfInBounds root true).size :=
        Array.count_le_size
  have hwalk := @size_walk_le targets order
    ((Array.replicate size false).setIfInBounds root true) [root] #[root]
  rw [Array.size_setIfInBounds, Array.size_replicate] at hcount
  unfold fromRoot
  rw [Array.length_toList]
  have hone : (#[root] : Array Nat).size = 1 := rfl
  omega

/-- Where a walk after a root begins, nothing is marked or listed. -/
theorem marks_none (size : Nat) :
    Marks (Array.replicate size false) (#[] : Array Nat).toList := by
  intro v hv
  rw [Array.size_replicate] at hv
  simp [Array.getD, hv]

/-- Where a walk from `root` begins, `root` is marked and listed. -/
theorem marks_root (size root : Nat) :
    Marks ((Array.replicate size false).setIfInBounds root true)
        #[root].toList := by
  intro v hv
  rw [Array.size_setIfInBounds, Array.size_replicate] at hv
  by_cases hvr : root = v
  · subst hvr
    simp [Array.getD, hv]
  · simp [Array.getD, hv, hvr, Ne.symm hvr]

/-- From the root on, everything is listed once. -/
theorem nodup_fromRoot (root : Nat) :
    (fromRoot size targets order root).Nodup :=
  nodup_walk (marks_root size root) (List.pairwise_singleton _ root)

theorem nodup_afterRoot (root : Nat) :
    (afterRoot size targets order root).Nodup :=
  nodup_walk (marks_none size) List.nodup_nil

/-- A walk from `root` lists `root` first. -/
theorem head_fromRoot (root : Nat) :
    (fromRoot size targets order root).head? = some root := by
  obtain ⟨rest, hrest⟩ := @prefix_walk targets order
    ((Array.replicate size false).setIfInBounds root true) [root] #[root]
  unfold fromRoot
  rw [← hrest]
  rfl

/-- A walk from `root` lists `root` and what it leads to. -/
theorem mem_fromRoot {root v : Nat} :
    v ∈ fromRoot size targets order root
      ↔ Relation.ReflTransGen (Edge size targets) root v := by
  have hsize : ((Array.replicate size false).setIfInBounds root true).size
    = size := by simp
  unfold fromRoot
  rw [Array.mem_toList_iff]
  constructor
  · intro hv
    rcases walk_sound hv with hv | ⟨w, hw, hpath⟩
    · rw [show v = root by simpa using hv]
    · rw [hsize] at hpath
      rw [← List.mem_singleton.mp hw]
      exact hpath.to_reflTransGen
  · intro hpath
    induction hpath with
    | refl => exact mem_walk_of_listed (by simp)
    | @tail x y _ hxy ih =>
        refine walk_closed (marks_root size root) hxy.1
          (by rw [hsize]; exact hxy.2) ?_
        by_cases hx : x = root
        · exact Or.inl (by simp [hx])
        · exact Or.inr ⟨ih, by simpa using hx⟩

/-- A walk after `root` lists what `root` leads to by at least one edge. -/
theorem mem_afterRoot {root v : Nat} :
    v ∈ afterRoot size targets order root
      ↔ Relation.TransGen (Edge size targets) root v := by
  have hsize : (Array.replicate size false).size = size := by simp
  have hm := marks_none size
  unfold afterRoot
  rw [Array.mem_toList_iff]
  constructor
  · intro hv
    rcases walk_sound hv with hv | ⟨w, hw, hpath⟩
    · simp at hv
    · rw [hsize] at hpath
      rw [← List.mem_singleton.mp hw]
      exact hpath
  · intro hpath
    induction hpath with
    | single hxy =>
        exact walk_closed hm hxy.1 (by rw [hsize]; exact hxy.2)
          (Or.inl (by simp))
    | tail _ hxy ih =>
        exact walk_closed hm hxy.1 (by rw [hsize]; exact hxy.2)
          (Or.inr ⟨ih, by simp⟩)

end Bytewise.Exploration

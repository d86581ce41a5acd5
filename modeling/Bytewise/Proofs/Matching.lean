/-
Two numberings side by side.

What is numbered in two ways is matched by a relation that is one to one.
Lists are matched element by element, and arrays by what they hold for
matched numbers, whatever they hold for the others. Everything that looks
at numbers only to tell them apart then goes the same way on both sides;
the walks of a graph do (`fromRoot_matches`).
-/
import Mathlib.Data.List.Nodup
import Bytewise.Proofs.Exploration
import Bytewise.Proofs.List

namespace Bytewise

variable {α α' β β' : Type}

-- =============================================================== lists

section

variable {R : α → α' → Prop} {xs : List α} {ys : List α'} {x : α} {y : α'}

/-- What does not tell matching elements apart makes the same list of both. -/
theorem map_of_forall₂ (h : List.Forall₂ R xs ys) {f : α → β} {f' : α' → β}
    (hf : ∀ x y, R x y → f x = f' y) : xs.map f = ys.map f' := by
  induction h with
  | nil => rfl
  | cons hxy _ ih => rw [List.map_cons, List.map_cons, hf _ _ hxy, ih]

theorem getElem?_of_forall₂ (h : List.Forall₂ R xs ys) {i : Nat}
    (hi : xs[i]? = some x) :
    ∃ y, ys[i]? = some y ∧ R x y := by
  induction h generalizing i with
  | nil => cases hi
  | @cons x' y' _ _ hxy _ ih =>
      cases i with
      | zero => exact ⟨y', rfl, Option.some.inj hi ▸ hxy⟩
      | succ i => exact ih hi

/-- What is matched with one list is matched with the other. -/
theorem forall₂_of_common {S : α → β → Prop} {T : α' → β → Prop} {zs : List β}
    (h : List.Forall₂ R xs ys) (h' : List.Forall₂ S xs zs)
    (himp : ∀ x y z, R x y → S x z → T y z) : List.Forall₂ T ys zs := by
  induction h generalizing zs with
  | nil =>
      cases h'
      exact .nil
  | cons hxy _ ih =>
      cases h' with
      | cons hxz hrest => exact .cons (himp _ _ _ hxy hxz) (ih hrest)

/-- Filtered alike, lists still match. -/
theorem filter_of_forall₂ (h : List.Forall₂ R xs ys) {p : α → Bool}
    {p' : α' → Bool} (hp : ∀ x y, R x y → p x = p' y) :
    List.Forall₂ R (xs.filter p) (ys.filter p') :=
  List.rel_filter (fun x y hxy => Bool.eq_iff_iff.mp (hp x y hxy)) h

/-- What is the same for matching elements is filtered from both. -/
theorem filterMap_of_forall₂ (h : List.Forall₂ R xs ys) {f : α → Option β}
    {f' : α' → Option β}
    (hf : ∀ x y, R x y → f x = f' y) : xs.filterMap f = ys.filterMap f' := by
  induction h with
  | nil => rfl
  | cons hxy _ ih =>
      rw [List.filterMap_cons, List.filterMap_cons, hf _ _ hxy, ih]

/-- The first elements of which something holds are matched. -/
theorem find_of_forall₂ (h : List.Forall₂ R xs ys) {p : α → Bool}
    {p' : α' → Bool} (hp : ∀ x y, R x y → p x = p' y) :
    Option.Rel R (xs.find? p) (ys.find? p') := by
  induction h with
  | nil => exact .none
  | @cons x y _ _ hxy _ ih =>
      rw [List.find?_cons, List.find?_cons, ← hp x y hxy]
      split
      · exact .some hxy
      · exact ih

/-- Lists that are compared alike are sorted alike. -/
theorem mergeSort_of_forall₂ (h : List.Forall₂ R xs ys) {le : α → α → Bool}
    {le' : α' → α' → Bool}
    (hle : ∀ x y, R x y → ∀ x₂ y₂, R x₂ y₂ → le x x₂ = le' y y₂) :
    List.Forall₂ R (xs.mergeSort le) (ys.mergeSort le') := by
  -- the pairs are sorted by either side
  have hlen := h.length_eq
  have hzip : ∀ p ∈ xs.zip ys, R p.1 p.2 := fun p hp => List.forall₂_zip h hp
  have hfst : (xs.zip ys).map Prod.fst = xs :=
    List.map_fst_zip (Nat.le_of_eq hlen)
  have hsnd : (xs.zip ys).map Prod.snd = ys :=
    List.map_snd_zip (Nat.le_of_eq hlen.symm)
  have hleft := List.map_mergeSort (r := fun p q : α × α' => le p.1 q.1)
    (s := le) (f := Prod.fst) (l := xs.zip ys) fun _ _ _ _ => rfl
  have hright := List.map_mergeSort (r := fun p q : α × α' => le p.1 q.1)
    (s := le') (f := Prod.snd) (l := xs.zip ys) fun p hp q hq =>
      hle p.1 p.2 (hzip p hp) q.1 q.2 (hzip q hq)
  rw [hfst] at hleft
  rw [hsnd] at hright
  rw [← hleft, ← hright, List.forall₂_map_left_iff, List.forall₂_map_right_iff]
  exact List.forall₂_same.mpr fun p hp =>
    hzip p ((List.mergeSort_perm _ _).mem_iff.mp hp)

variable (hR : Relator.BiUnique R)
include hR

variable [BEq α] [LawfulBEq α] [BEq α'] [LawfulBEq α']

/-- Lists contain matching elements alike. -/
theorem contains_of_forall₂ (h : List.Forall₂ R xs ys) (hxy : R x y) :
    xs.contains x = ys.contains y := by
  rw [Bool.eq_iff_iff, List.contains_iff_mem, List.contains_iff_mem]
  exact List.rel_mem hR hxy h

/-- An element is put to the end unless it is listed. -/
theorem extend_of_forall₂ (h : List.Forall₂ R xs ys) (hxy : R x y) :
    List.Forall₂ R (if xs.contains x then xs else xs ++ [x])
      (if ys.contains y then ys else ys ++ [y]) := by
  rw [← contains_of_forall₂ hR h hxy]
  split
  · exact h
  · exact List.rel_append h (.cons hxy .nil)

end

-- ============================================================== arrays

/-- Matched numbers are within both arrays, and what the arrays hold for them
is related. -/
structure ArraysMatch (m : Nat → Nat → Prop) (R : β → β' → Prop) (d : β)
    (d' : β') (xs : Array β) (ys : Array β') : Prop where
  inside : ∀ i j, m i j → i < xs.size ∧ j < ys.size
  held : ∀ i j, m i j → R (xs.getD i d) (ys.getD j d')

section

variable {m : Nat → Nat → Prop} {R : β → β' → Prop} {d x : β} {d' y : β'}
  {xs : Array β} {ys : Array β'} {i j : Nat}

/-- A place that is set has its new value, the others keep theirs. -/
theorem getD_set (hi : i < xs.size) (k : Nat) :
    (xs.setIfInBounds i x).getD k d = if k = i then x else xs.getD k d := by
  by_cases hk : k = i
  · subst hk
    simp [hi]
  · simp [hk, Ne.symm hk]

/-- Arrays set in matching places still match. -/
theorem ArraysMatch.set (hm : Relator.BiUnique m)
    (h : ArraysMatch m R d d' xs ys) (hij : m i j) (hxy : R x y) :
    ArraysMatch m R d d' (xs.setIfInBounds i x) (ys.setIfInBounds j y) := by
  obtain ⟨hi, hj⟩ := h.inside i j hij
  refine ⟨fun k l hkl => ?_, fun k l hkl => ?_⟩
  · rw [Array.size_setIfInBounds, Array.size_setIfInBounds]
    exact h.inside k l hkl
  · have hiff : k = i ↔ l = j := by
      constructor
      · rintro rfl
        exact hm.2 hkl hij
      · rintro rfl
        exact hm.1 hkl hij
    rw [getD_set hi, getD_set hj]
    simp only [hiff]
    split
    · exact hxy
    · exact h.held k l hkl

/-- Arrays of one matching value match. -/
theorem ArraysMatch.replicate {size size' : Nat}
    (hinside : ∀ i j, m i j → i < size ∧ j < size')
    (hd : R d d') : ArraysMatch m R d d' (Array.replicate size d)
    (Array.replicate size' d') := by
  refine ⟨fun i j hij => ?_, fun i j hij => ?_⟩
  · rw [Array.size_replicate, Array.size_replicate]
    exact hinside i j hij
  · obtain ⟨hi, hj⟩ := hinside i j hij
    simpa [hi, hj] using hd

end

-- =============================================================== walks

namespace Exploration

variable {m : Nat → Nat → Prop} {seen seen' : Array Bool} {ts ts' : List Nat}

/-- Matched nodes are marked alike. -/
abbrev MarksMatch (m : Nat → Nat → Prop) (seen seen' : Array Bool) : Prop :=
  ArraysMatch m Eq false false seen seen'

/-- Matching elements are discovered on both sides. -/
theorem discover_matches (hm : Relator.BiUnique m)
    (h : MarksMatch m seen seen') (hts : List.Forall₂ m ts ts') :
    MarksMatch m (discover seen ts).1 (discover seen' ts').1
      ∧ List.Forall₂ m (discover seen ts).2 (discover seen' ts').2 := by
  induction hts generalizing seen seen' with
  | nil => exact ⟨h, .nil⟩
  | @cons t t' ts ts' ht _ ih =>
      obtain ⟨hlt, hlt'⟩ := h.inside t t' ht
      have hheld := h.held t t' ht
      cases hmark : seen.getD t false with
      | true =>
          rw [discover_marked hlt hmark, discover_marked hlt'
            (hheld.symm.trans hmark)]
          exact ih h
      | false =>
          rw [discover_new hlt hmark, discover_new hlt'
            (hheld.symm.trans hmark)]
          have hset : MarksMatch m (seen.set t true) (seen'.set t' true) := by
            have hset := h.set hm ht (x := true) (y := true) rfl
            rwa [Array.setIfInBounds, dif_pos hlt, Array.setIfInBounds,
              dif_pos hlt'] at hset
          obtain ⟨hseen, hfound⟩ := ih hset
          exact ⟨hseen, .cons ht hfound⟩

theorem walk_matches (hm : Relator.BiUnique m)
    {targets targets' : Nat → List Nat}
    (htargets : ∀ n n', m n n' → List.Forall₂ m (targets n) (targets' n'))
    (order : Order) {waiting waiting' : List Nat} {listed listed' : Array Nat}
    (h : MarksMatch m seen seen') (hwaiting : List.Forall₂ m waiting waiting')
    (hlisted : List.Forall₂ m listed.toList listed'.toList) :
    List.Forall₂ m (walk targets order seen waiting listed).toList
      (walk targets' order seen' waiting' listed').toList := by
  fun_induction walk targets order seen waiting listed generalizing seen'
      waiting' listed' with
  | case1 =>
      cases hwaiting
      rw [walk]
      exact hlisted
  | case2 =>
      rename_i seen listed id waiting next ih
      cases hwaiting with
      | @cons _ id' _ waiting' hid hwaiting =>
          obtain ⟨hseen, hfound⟩ := discover_matches hm h (htargets id id' hid)
          rw [walk]
          refine ih hseen ?_ ?_
          · cases order with
            | queue => exact List.rel_append hwaiting hfound
            | stack => exact List.rel_append (List.rel_reverse hfound) hwaiting
          · rw [Array.toList_appendList, Array.toList_appendList]
            exact List.rel_append hlisted hfound

/-- Walks from matched roots list matched nodes, in one order. -/
theorem fromRoot_matches (hm : Relator.BiUnique m)
    {targets targets' : Nat → List Nat}
    (htargets : ∀ n n', m n n' → List.Forall₂ m (targets n) (targets' n'))
    (order : Order) {size size' : Nat}
    (hinside : ∀ n n', m n n' → n < size ∧ n' < size') {root root' : Nat}
    (hroot : m root root') :
    List.Forall₂ m (fromRoot size targets order root)
        (fromRoot size' targets' order root') := by
  have hmarks : MarksMatch m (Array.replicate size false)
      (Array.replicate size' false) :=
    .replicate hinside rfl
  exact walk_matches hm htargets order (hmarks.set hm hroot rfl)
    (.cons hroot .nil)
    (.cons hroot .nil)

end Exploration

end Bytewise

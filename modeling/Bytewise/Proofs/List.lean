/-
Counts and sums that measure progress, lists related element by element,
and the order in which the elements of a list first occur.
-/
import Mathlib.Algebra.GroupWithZero.Nat
import Mathlib.Data.List.Forall2

namespace Bytewise

/-- A predicate that holds of more elements counts more. -/
theorem countP_lt {α : Type} {p q : α → Bool} {x : α} :
    ∀ {l : List α}, (∀ y ∈ l, p y = true → q y = true) → x ∈ l →
      p x = false → q x = true →
      l.countP p < l.countP q := by
  intro l
  induction l with
  | nil => intro _ hx; cases hx
  | cons y l ih =>
      intro hpq hx hp hq
      have hle : l.countP p ≤ l.countP q :=
        List.countP_mono_left fun z hz => hpq z (List.mem_cons_of_mem y hz)
      rcases List.mem_cons.mp hx with rfl | hx
      · rw [List.countP_cons_of_neg (by simp [hp]), List.countP_cons_of_pos hq]
        omega
      · have hlt := ih (fun z hz => hpq z (List.mem_cons_of_mem y hz)) hx hp hq
        have hy := hpq y List.mem_cons_self
        rw [List.countP_cons, List.countP_cons]
        by_cases hpy : p y = true
        · rw [if_pos hpy, if_pos (hy hpy)]
          omega
        · rw [if_neg hpy]
          omega

/-- Replacing one summand exchanges it in the sum. -/
theorem sum_map_set {α : Type} {f : α → Nat} {x : α} :
    ∀ {l : List α} {i : Nat} (hi : i < l.length),
      ((l.set i x).map f).sum + f l[i] = (l.map f).sum + f x
  | y :: l, 0, _ => by
    simp only [List.set_cons_zero, List.map_cons, List.sum_cons,
      List.getElem_cons_zero]
    omega
  | y :: l, i + 1, hi => by
    have ih := sum_map_set (f := f) (x := x) (Nat.lt_of_succ_lt_succ hi)
    simp only [List.set_cons_succ, List.map_cons, List.sum_cons,
      List.getElem_cons_succ]
    omega

/-- Replacing one summand by one that is no larger does not make a sum
larger. -/
theorem sum_map_set_le {α : Type} {f : α → Nat} {x : α} {l : List α} {i : Nat}
    (hi : i < l.length) (hle : f x ≤ f l[i]) :
    ((l.set i x).map f).sum ≤ (l.map f).sum := by
  have := sum_map_set (f := f) (x := x) hi
  omega

/-- Replacing one summand by a smaller one makes a sum smaller. -/
theorem sum_map_set_lt {α : Type} {f : α → Nat} {x : α} {l : List α} {i : Nat}
    (hi : i < l.length) (hlt : f x < f l[i]) :
    ((l.set i x).map f).sum < (l.map f).sum := by
  have := sum_map_set (f := f) (x := x) hi
  omega

/-- A sum is bounded by a bound on its summands. -/
theorem sum_map_le {α : Type} {f : α → Nat} {b : Nat} (hf : ∀ x, f x ≤ b)
    (l : List α) :
    (l.map f).sum ≤ b * l.length := by
  induction l with
  | nil => exact Nat.le_refl _
  | cons x l ih =>
      have := hf x
      rw [List.map_cons, List.sum_cons, List.length_cons, Nat.mul_succ]
      omega

/-- An element on the left is related to one on the right. -/
theorem exists_of_mem_left {α β : Type} {R : α → β → Prop} {xs : List α}
    {ys : List β} (h : List.Forall₂ R xs ys) {x : α}
    (hx : x ∈ xs) : ∃ y ∈ ys, R x y := by
  induction h with
  | nil => cases hx
  | cons hxy _ ih =>
      rcases List.mem_cons.mp hx with rfl | hx
      · exact ⟨_, List.mem_cons_self, hxy⟩
      · obtain ⟨y, hy, hR⟩ := ih hx
        exact ⟨y, List.mem_cons_of_mem _ hy, hR⟩

/-- An element on the right is related to one on the left. -/
theorem exists_of_mem_right {α β : Type} {R : α → β → Prop} {xs : List α}
    {ys : List β} (h : List.Forall₂ R xs ys) {y : β}
    (hy : y ∈ ys) : ∃ x ∈ xs, R x y :=
  exists_of_mem_left (List.forall₂_iff_zip.mpr
    ⟨h.length_eq.symm, fun hz => List.forall₂_zip h.flip hz⟩ : List.Forall₂
      (flip R) ys xs) hy

/-- What is collected from a list that is made element by element. -/
theorem mem_flatMap_of_forall₂ {α β γ : Type} {R : α → β → Prop} {p : α → Prop}
    {f : β → List γ} {z : γ} {xs : List α} {ys : List β}
    (h : List.Forall₂ R xs ys)
    (hf : ∀ x y, R x y → (z ∈ f y ↔ p x)) : z ∈ ys.flatMap f ↔ ∃ x ∈ xs,
    p x := by
  rw [List.mem_flatMap]
  constructor
  · rintro ⟨y, hy, hz⟩
    obtain ⟨x, hx, hxy⟩ := exists_of_mem_right h hy
    exact ⟨x, hx, (hf x y hxy).mp hz⟩
  · rintro ⟨x, hx, hpx⟩
    obtain ⟨y, hy, hxy⟩ := exists_of_mem_left h hx
    exact ⟨y, hy, (hf x y hxy).mpr hpx⟩

/-- What a change keeps of every element is kept of the list. -/
theorem map_modify {α β : Type} {f : α → α} {g : α → β}
    (h : ∀ x, g (f x) = g x) (l : List α)
    (i : Nat) : (l.modify i f).map g = l.map g := by
  induction l generalizing i with
  | nil => cases i <;> rfl
  | cons x l ih =>
      cases i with
      | zero => exact congrArg (· :: l.map g) (h x)
      | succ i => exact congrArg (g x :: ·) (ih i)

/-- With one element changed, every element was there or is the changed one. -/
theorem mem_modify {α : Type} {f : α → α} {i : Nat} {x y : α} :
    ∀ {l : List α}, l[i]? = some x → y ∈ l.modify i f → y ∈ l ∨ y = f x := by
  intro l hx hy
  obtain ⟨j, hj⟩ := List.mem_iff_getElem?.mp hy
  rw [List.getElem?_modify] at hj
  obtain ⟨z, hz, hzy⟩ := Option.map_eq_some_iff.mp hj
  by_cases hij : i = j
  · subst hij
    rw [if_pos rfl, Option.some.inj (hz.symm.trans hx)] at hzy
    exact Or.inr hzy.symm
  · rw [if_neg hij] at hzy
    exact Or.inl (hzy ▸ List.mem_of_getElem? hz)

/-- With one element changed, the others are still there. -/
theorem mem_modify_of_mem {α : Type} {f : α → α} {i : Nat} {x : α} {l : List α}
    (hx : x ∈ l) :
    x ∈ l.modify i f ∨ (l[i]? = some x ∧ f x ∈ l.modify i f) := by
  obtain ⟨j, hj⟩ := List.mem_iff_getElem?.mp hx
  by_cases hij : i = j
  · subst hij
    refine Or.inr ⟨hj, List.mem_iff_getElem?.mpr ⟨i, ?_⟩⟩
    rw [List.getElem?_modify, hj]
    exact congrArg some (if_pos rfl)
  · refine Or.inl (List.mem_iff_getElem?.mpr ⟨j, ?_⟩)
    rw [List.getElem?_modify, hj]
    exact congrArg some (if_neg hij)

-- ========================================================= first places

section

variable {α β : Type} [DecidableEq α] [DecidableEq β] {seen : List α} {x : α}
  {xs ys : List α}

/-- The elements that are not `seen`, each where it first occurs. -/
def firsts (seen : List α) : List α → List α
  | [] => []
  | x :: xs =>
    if x ∈ seen then firsts seen xs else x :: firsts (seen ++ [x]) xs

theorem firsts_cons_of_mem (h : x ∈ seen) :
    firsts seen (x :: xs) = firsts seen xs :=
  if_pos h

/-- What is new is listed and seen from then on. -/
theorem firsts_cons_of_notMem (h : x ∉ seen) :
    firsts seen (x :: xs) = x :: firsts (seen ++ [x]) xs :=
  if_neg h

/-- Listed are the elements that were not seen before. -/
theorem mem_firsts : x ∈ firsts seen xs ↔ x ∈ xs ∧ x ∉ seen := by
  induction xs generalizing seen with
  | nil => simp [firsts]
  | cons y xs ih =>
      by_cases hy : y ∈ seen
      · rw [firsts_cons_of_mem hy, ih, List.mem_cons]
        constructor
        · rintro ⟨hx, hnew⟩
          exact ⟨Or.inr hx, hnew⟩
        · rintro ⟨rfl | hx, hnew⟩
          · exact absurd hy hnew
          · exact ⟨hx, hnew⟩
      · rw [firsts_cons_of_notMem hy, List.mem_cons, List.mem_cons, ih,
          List.mem_append,
          List.mem_singleton]
        by_cases hxy : x = y
        · subst hxy
          simp [hy]
        · simp [hxy]

theorem nodup_firsts : (firsts seen xs).Nodup := by
  induction xs generalizing seen with
  | nil => exact List.nodup_nil
  | cons y xs ih =>
      by_cases hy : y ∈ seen
      · rw [firsts_cons_of_mem hy]
        exact ih
      · rw [firsts_cons_of_notMem hy]
        refine List.nodup_cons.mpr ⟨fun hmem => (mem_firsts.mp hmem).2 ?_, ih⟩
        exact List.mem_append_right _ (List.mem_singleton.mpr rfl)

/-- In which order elements have been seen does not matter. -/
theorem firsts_congr {seen' : List α} (h : ∀ x, x ∈ seen ↔ x ∈ seen') :
    firsts seen xs = firsts seen' xs := by
  induction xs generalizing seen seen' with
  | nil => rfl
  | cons y xs ih =>
      by_cases hy : y ∈ seen
      · rw [firsts_cons_of_mem hy, firsts_cons_of_mem ((h y).mp hy), ih h]
      · rw [firsts_cons_of_notMem hy, firsts_cons_of_notMem fun hy' =>
          hy ((h y).mpr hy')]
        exact congrArg _ (ih fun x => by simp [h x])

/-- One list after another is gone through with what the first has shown. -/
theorem firsts_append :
    firsts seen (xs ++ ys) = firsts seen xs ++ firsts (seen ++ xs) ys := by
  induction xs generalizing seen with
  | nil => simp [firsts]
  | cons y xs ih =>
      rw [List.cons_append]
      by_cases hy : y ∈ seen
      · rw [firsts_cons_of_mem hy, firsts_cons_of_mem hy, ih]
        refine congrArg _ (firsts_congr fun x => ?_)
        simp only [List.mem_append, List.mem_cons]
        constructor
        · exact fun hx => hx.imp_right Or.inr
        · rintro (hx | rfl | hx)
          · exact Or.inl hx
          · exact Or.inl hy
          · exact Or.inr hx
      · rw [firsts_cons_of_notMem hy, firsts_cons_of_notMem hy, ih,
          List.append_assoc]
        rfl

/-- Lists with the same elements first are so with the same list behind
them. -/
theorem firsts_append_congr {xs' : List α} (h : firsts [] xs = firsts [] xs') :
    firsts [] (xs ++ ys) = firsts [] (xs' ++ ys) := by
  rw [firsts_append, firsts_append, h]
  refine congrArg _ (firsts_congr fun x => ?_)
  have hmem := @mem_firsts α _ [] x xs
  rw [h, mem_firsts] at hmem
  simpa using hmem.symm

/-- Images first occur in the order in which their sources do. -/
theorem firsts_map {f : α → β} {seen' : List β} (h : ∀ x ∈ seen, f x ∈ seen') :
    firsts seen' (xs.map f) = firsts seen' ((firsts seen xs).map f) := by
  induction xs generalizing seen seen' with
  | nil => rfl
  | cons y xs ih =>
      by_cases hy : y ∈ seen
      · rw [firsts_cons_of_mem hy, List.map_cons, firsts_cons_of_mem
          (h y hy), ih h]
      · rw [firsts_cons_of_notMem hy, List.map_cons, List.map_cons]
        by_cases hfy : f y ∈ seen'
        · rw [firsts_cons_of_mem hfy, firsts_cons_of_mem hfy]
          refine ih fun x hx => ?_
          rcases List.mem_append.mp hx with hx | hx
          · exact h x hx
          · rw [List.mem_singleton.mp hx]
            exact hfy
        · rw [firsts_cons_of_notMem hfy, firsts_cons_of_notMem hfy]
          refine congrArg _ (ih fun x hx => List.mem_append.mpr ?_)
          rcases List.mem_append.mp hx with hx | hx
          · exact Or.inl (h x hx)
          · rw [List.mem_singleton.mp hx]
            exact Or.inr List.mem_cons_self

end

-- ========================================================== repetitions

/-- Erasing repetitions keeps all elements. -/
private theorem mem_eraseRepsBy_loop {α : Type} [BEq α] [LawfulBEq α] {x : α}
    (as : List α) :
    ∀ (a : α) (acc : List α),
      x ∈ List.eraseRepsBy.loop (· == ·) a as acc ↔ x = a ∨ x ∈ as
          ∨ x ∈ acc := by
  induction as with
  | nil => simp [List.eraseRepsBy.loop, or_comm]
  | cons a' as ih =>
      intro a acc
      rw [List.eraseRepsBy.loop]
      cases hsame : a == a' with
      | true =>
          dsimp only
          rw [ih, List.mem_cons, ← eq_of_beq hsame]
          tauto
      | false =>
          dsimp only
          rw [ih, List.mem_cons, List.mem_cons]
          tauto

/-- Erasing repetitions keeps what is listed. -/
theorem mem_eraseReps {α : Type} [BEq α] [LawfulBEq α] {l : List α} {x : α} :
    x ∈ l.eraseReps ↔ x ∈ l := by
  cases l with
  | nil => exact Iff.rfl
  | cons a as =>
      rw [List.eraseReps, List.eraseRepsBy, mem_eraseRepsBy_loop,
        List.mem_cons]
      simp

/-- Erasing duplicates leaves none. -/
theorem nodup_eraseDups {α : Type} [BEq α] [LawfulBEq α] :
    ∀ l : List α, l.eraseDups.Nodup
  | [] => List.nodup_nil
  | a :: as => by
      rw [List.eraseDups_cons]
      refine List.nodup_cons.mpr ⟨fun hmem => ?_, nodup_eraseDups _⟩
      obtain ⟨-, hother⟩ := List.mem_filter.mp (List.mem_eraseDups.mp hmem)
      simp at hother
termination_by l => l.length
decreasing_by
  have := List.length_filter_le (fun b => !b == a) as
  simp only [List.length_cons]
  omega

end Bytewise

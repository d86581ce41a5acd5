/-
Programs that may fail, taken apart at their answers.

A chain of calls that answers had every call answer; these lemmas turn the
one equation into one for each call. What a chain can fail with, one of its
calls can (`FailsWith`). Two chains agree (`Agree`) if their calls do, one
by one: then they fail alike, or both answer.
-/
import Bytewise.Proofs.List

namespace Bytewise

variable {ε α β : Type}

/-- If a chain answers, its first call does, and the rest answers what the
chain does. -/
theorem ok_of_bind {x : Except ε α} {f : α → Except ε β} {b : β}
    (h : x >>= f = .ok b) :
    ∃ a, x = .ok a ∧ f a = .ok b := by
  cases x with
  | error cause => cases h
  | ok a => exact ⟨a, rfl, h⟩

/-- What a mapped program answers comes from an answer of it. -/
theorem ok_of_map {x : Except ε α} {f : α → β} {b : β} (h : x.map f = .ok b) :
    ∃ a, x = .ok a ∧ f a = b := by
  cases x with
  | error e => cases h
  | ok a => exact ⟨a, rfl, Except.ok.inj h⟩

/-- If a check of every element passes, each check does. -/
theorem ok_of_forM {check : α → Except ε Unit} {xs : List α}
    (h : xs.forM check = .ok ()) {x : α} (hx : x ∈ xs) : check x = .ok () := by
  induction xs with
  | nil => cases hx
  | cons y xs ih =>
      obtain ⟨⟨⟩, hy, hrest⟩ := ok_of_bind h
      rcases List.mem_cons.mp hx with rfl | hx
      · exact hy
      · exact ih hrest hx

/-- What every step of a fold does, the fold does, and what a step brings about
stays. -/
theorem foldlM_ok {σ : Type} {R : σ → σ → Prop} {Q : α → σ → Prop}
    {step : σ → α → Except ε σ} (refl : ∀ s, R s s)
    (trans : ∀ {a b c}, R a b → R b c → R a c)
    (kept : ∀ {x a b}, R a b → Q x a → Q x b) {xs : List α} {first last : σ}
    (each : ∀ s t x, x ∈ xs → R first s → step s x = .ok t → R s t ∧ Q x t)
    (h : xs.foldlM step first = .ok last) :
    R first last ∧ ∀ x ∈ xs, Q x last := by
  induction xs generalizing first with
  | nil =>
      obtain rfl : first = last := Except.ok.inj h
      exact ⟨refl first, fun x hx => nomatch hx⟩
  | cons x xs ih =>
      rw [List.foldlM_cons] at h
      obtain ⟨mid, hfirst, hrest⟩ := ok_of_bind h
      obtain ⟨hmid, hx⟩ :=
        each first mid x List.mem_cons_self (refl first) hfirst
      obtain ⟨hlast, hall⟩ := ih
        (fun s t y hy hs => each s t y (List.mem_cons_of_mem x hy)
          (trans hmid hs)) hrest
      refine ⟨trans hmid hlast, fun y hy => ?_⟩
      rcases List.mem_cons.mp hy with rfl | hy
      · exact kept hlast hx
      · exact hall y hy

/-- The elements that a program maps to each other. -/
theorem forall₂_of_mapM {f : α → Except ε β} {xs : List α} {ys : List β}
    (h : xs.mapM f = .ok ys) :
    List.Forall₂ (fun x y => f x = .ok y) xs ys := by
  induction xs generalizing ys with
  | nil =>
      obtain rfl : [] = ys := Except.ok.inj h
      exact .nil
  | cons x xs ih =>
      rw [List.mapM_cons] at h
      obtain ⟨y, hy, hrest⟩ := ok_of_bind h
      obtain ⟨ys', hys, hlast⟩ := ok_of_bind hrest
      obtain rfl := Except.ok.inj hlast
      exact .cons hy (ih hys)

-- ============================================================ failures

/-- What the program fails with, if it does, satisfies `P`. -/
def FailsWith (P : ε → Prop) (x : Except ε α) : Prop :=
  ∀ cause, x = .error cause → P cause

variable {P : ε → Prop}

theorem FailsWith.ok (a : α) : FailsWith P (.ok a : Except ε α) :=
  fun _ h => nomatch h

/-- A sequence fails with what its steps fail with. -/
theorem FailsWith.bind {x : Except ε α} {f : α → Except ε β}
    (hx : FailsWith P x)
    (hf : ∀ a, x = .ok a → FailsWith P (f a)) : FailsWith P (x >>= f) := by
  cases x with
  | error cause => exact fun _ h => Except.error.inj h ▸ hx cause rfl
  | ok a => exact hf a rfl

/-- Going through a list fails with what its steps fail with. -/
theorem FailsWith.mapM {f : α → Except ε β} {xs : List α}
    (h : ∀ x ∈ xs, FailsWith P (f x)) :
    FailsWith P (xs.mapM f) := by
  induction xs with
  | nil => exact .ok []
  | cons x xs ih =>
      rw [List.mapM_cons]
      refine (h x List.mem_cons_self).bind fun y _ => ?_
      refine (ih fun z hz => h z (List.mem_cons_of_mem x hz)).bind fun ys _ =>
        .ok (y :: ys)

theorem FailsWith.forM {check : α → Except ε Unit} {xs : List α}
    (h : ∀ x ∈ xs, FailsWith P (check x)) : FailsWith P (xs.forM check) := by
  induction xs with
  | nil => exact .ok ()
  | cons x xs ih =>
      exact (h x List.mem_cons_self).bind fun _ _ =>
        ih fun z hz => h z (List.mem_cons_of_mem x hz)

theorem FailsWith.foldlM {σ : Type} {step : σ → α → Except ε σ}
    {xs : List α} (first : σ) (h : ∀ s, ∀ x ∈ xs, FailsWith P (step s x)) :
    FailsWith P (xs.foldlM step first) := by
  induction xs generalizing first with
  | nil => exact .ok first
  | cons x xs ih =>
      rw [List.foldlM_cons]
      exact (h first x List.mem_cons_self).bind fun next _ =>
        ih next fun s y hy => h s y (List.mem_cons_of_mem x hy)

-- ======================================================= two programs

/-- Both programs fail with one cause, or both answer, and the answers are
related. -/
inductive Agree (R : α → β → Prop) : Except ε α → Except ε β → Prop where
  | error (cause : ε) : Agree R (.error cause) (.error cause)
  | ok {a : α} {b : β} (related : R a b) : Agree R (.ok a) (.ok b)

namespace Agree

variable {α' β' : Type} {R : α → α' → Prop} {S : β → β' → Prop}

theorem bind {x : Except ε α} {x' : Except ε α'} {f : α → Except ε β}
    {f' : α' → Except ε β'} (hx : Agree R x x')
    (hf : ∀ a a', R a a' → Agree S (f a) (f' a')) :
    Agree S (x >>= f) (x' >>= f') := by
  cases hx with
  | error cause => exact .error cause
  | ok related => exact hf _ _ related

theorem mono {R' : α → α' → Prop} {x : Except ε α} {x' : Except ε α'}
    (h : Agree R x x') (himp : ∀ a a', R a a' → R' a a') : Agree R' x x' := by
  cases h with
  | error cause => exact .error cause
  | ok related => exact .ok (himp _ _ related)

/-- What the programs answer is what they are found to answer. -/
theorem answers {x : Except ε α} {x' : Except ε α'} (h : Agree R x x') :
    Agree (fun a a' => R a a' ∧ x = .ok a ∧ x' = .ok a') x x' := by
  cases h with
  | error cause => exact .error cause
  | ok related => exact .ok ⟨related, rfl, rfl⟩

theorem symm {x : Except ε α} {x' : Except ε α'} (h : Agree R x x') :
    Agree (flip R) x' x := by
  cases h with
  | error cause => exact .error cause
  | ok related => exact .ok related

theorem refl {R : α → α → Prop} (hR : ∀ a, R a a) (x : Except ε α) :
    Agree R x x := by
  cases x with
  | error cause => exact .error cause
  | ok a => exact .ok (hR a)

/-- Programs with equal answers are equal. -/
theorem eq {x x' : Except ε α} (h : Agree Eq x x') : x = x' := by
  cases h with
  | error cause => rfl
  | ok related => rw [related]

/-- Going through lists that match agrees if every step does. -/
theorem mapM {f : α → Except ε β} {f' : α' → Except ε β'} {xs : List α}
    {xs' : List α'} (hxs : List.Forall₂ R xs xs')
    (hf : ∀ a a', R a a' → Agree S (f a) (f' a')) :
    Agree (List.Forall₂ S) (xs.mapM f) (xs'.mapM f') := by
  induction hxs with
  | nil => exact .ok .nil
  | cons hhead _ ih =>
      rw [List.mapM_cons, List.mapM_cons]
      refine (hf _ _ hhead).bind fun b b' hb => ih.bind fun bs bs' hbs => ?_
      exact .ok (.cons hb hbs)

theorem forM {f : α → Except ε Unit} {f' : α' → Except ε Unit} {xs : List α}
    {xs' : List α'} (hxs : List.Forall₂ R xs xs')
    (hf : ∀ a a', R a a' → Agree Eq (f a) (f' a')) :
    Agree Eq (xs.forM f) (xs'.forM f') := by
  induction hxs with
  | nil => exact .ok rfl
  | cons hhead _ ih => exact (hf _ _ hhead).bind fun _ _ _ => ih

theorem foldlM {σ σ' : Type} {I : σ → σ' → Prop} {f : σ → α → Except ε σ}
    {f' : σ' → α' → Except ε σ'} {xs : List α} {xs' : List α'}
    (hxs : List.Forall₂ R xs xs')
    (hf : ∀ s s' a a', I s s' → R a a' → Agree I (f s a) (f' s' a')) {s : σ}
    {s' : σ'} (hs : I s s') : Agree I (xs.foldlM f s) (xs'.foldlM f' s') := by
  induction hxs generalizing s s' with
  | nil => exact .ok hs
  | cons hhead _ ih =>
      rw [List.foldlM_cons, List.foldlM_cons]
      exact (hf _ _ _ _ hs hhead).bind fun t t' ht => ih ht

end Agree

/-- With its cause changed, a chain fails where it did. -/
theorem mapError_bind {ε' : Type} (change : ε → ε') (x : Except ε α)
    (f : α → Except ε β) :
    (x >>= f).mapError change = x.mapError change >>= fun a => (f a).mapError
        change := by
  cases x <;> rfl

/-- Causes may be changed step by step or at the end. -/
theorem mapError_mapM {ε' : Type} (change : ε → ε') (f : α → Except ε β)
    (xs : List α) :
    (xs.mapM f).mapError change = xs.mapM fun x => (f x).mapError change := by
  induction xs with
  | nil => rfl
  | cons x xs ih =>
      simp only [List.mapM_cons, mapError_bind, ih]
      rfl

end Bytewise

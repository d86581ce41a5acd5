/-
Two assemblies side by side.

The nodes of two graphs are matched by a relation, and the assemblies are
twins: machines that are twins, the same names taken, and matched nodes
entered with the same states. Two programs run from twins agree (`Agrees`)
if they fail alike, or end in twins again; every action of an assembly
does, with one rule for each way in which programs are put together. What
was entered stays entered (`Onward`), on either side.
-/
import Mathlib.Logic.Relator
import Bytewise.Proofs.Machine.Twins
import Bytewise.Proofs.Parser.Formed

namespace Bytewise.Assembly

-- ============================================================ relations

/-- The assemblies of machines that are twins, in which matched nodes have the
same states. -/
structure Twins (swaps : Prop) (m : NodeId → NodeId → Prop) (a a' : Assembly) :
    Prop where
  machine : a.machine.Twins swaps a'.machine
  stateNames : a.stateNames = a'.stateNames
  codeNames : a.codeNames = a'.codeNames
  entered : ∀ n n', m n n' → a.stateOf? n = a'.stateOf? n'
  inside : ∀ n n', m n n' → n < a.entered.size ∧ n' < a'.entered.size

/-- An assembly that has gone on: its states are what they were, and what was
entered is. -/
structure Onward (a b : Assembly) : Prop extends Kept a b where
  room : b.entered.size = a.entered.size
  entered : ∀ n s, a.stateOf? n = some s → b.stateOf? n = some s
  unentered : b.unentered ≤ a.unentered

variable {α α' β β' : Type} {swaps : Prop} {m : NodeId → NodeId → Prop}
  {a a' b b' c : Assembly}

theorem Twins.symm (h : Twins swaps m a a') : Twins swaps (flip m) a' a where
  machine := h.machine.symm
  stateNames := h.stateNames.symm
  codeNames := h.codeNames.symm
  entered n n' hm := (h.entered n' n hm).symm
  inside n n' hm := (h.inside n' n hm).symm

theorem Onward.refl (a : Assembly) : Onward a a where
  toKept := Kept.refl a
  room := rfl
  entered _ _ h := h
  unentered := Nat.le_refl _

theorem Onward.trans (h : Onward a b) (h' : Onward b c) : Onward a c where
  toKept := h.toKept.trans h'.toKept
  room := h'.room.trans h.room
  entered n s hs := h'.entered n s (h.entered n s hs)
  unentered := Nat.le_trans h'.unentered h.unentered

/-- Nothing is entered when states and names change. -/
theorem Onward.of_kept (h : Kept a b) (hentered : b.entered = a.entered) :
    Onward a b where
  toKept := h
  room := congrArg Array.size hentered
  entered n s hs := by
    unfold stateOf? at hs ⊢
    rwa [hentered]
  unentered := by
    unfold Assembly.unentered
    rw [hentered]

/-- Run from these assemblies, both programs fail with one cause, or both
answer, leave twins, and what they answer is as `post` says. -/
def Agrees (swaps : Prop) (m : NodeId → NodeId → Prop) (x : Assemble α)
    (a : Assembly) (x' : Assemble α') (a' : Assembly)
    (post : α → Assembly → α' → Assembly → Prop) : Prop :=
  Agree (fun r r' => Twins swaps m r.2 r'.2 ∧ Onward a r.2 ∧ Onward a' r'.2
    ∧ post r.1 r.2 r'.1 r'.2) (x.run a) (x'.run a')

-- ============================================================ programs

variable {post : β → Assembly → β' → Assembly → Prop}

namespace Agrees

theorem pure {v : β} {v' : β'} (h : Twins swaps m a a')
    (hpost : post v a v' a') :
    Agrees swaps m (Pure.pure v) a (Pure.pure v') a' post :=
  .ok ⟨h, .refl a, .refl a', hpost⟩

theorem throw (cause : Cause) :
    Agrees swaps m (MonadExcept.throw cause) a (MonadExcept.throw cause)
        a' post :=
  .error cause

theorem bind {x : Assemble α} {x' : Assemble α'} {f : α → Assemble β}
    {f' : α' → Assemble β'} {mid : α → Assembly → α' → Assembly → Prop}
    (hx : Agrees swaps m x a x' a' mid)
    (hf : ∀ v b v' b', Twins swaps m b b' → Onward a b → Onward a' b' →
      mid v b v' b' →
      Agrees swaps m (f v) b (f' v') b' post) :
    Agrees swaps m (x >>= f) a (x' >>= f') a' post := by
  unfold Agrees
  rw [StateT.run_bind, StateT.run_bind]
  refine Agree.bind hx fun r r' hr => ?_
  obtain ⟨htwins, hon, hon', hmid⟩ := hr
  refine (hf r.1 r.2 r'.1 r'.2 htwins hon hon' hmid).mono fun s s' hs => ?_
  obtain ⟨hlast, hon₂, hon₂', hpost⟩ := hs
  exact ⟨hlast, hon.trans hon₂, hon'.trans hon₂', hpost⟩

theorem mono {post' : β → Assembly → β' → Assembly → Prop} {x : Assemble β}
    {x' : Assemble β'} (h : Agrees swaps m x a x' a' post)
    (himp : ∀ v b v' b', Twins swaps m b b' → Onward a b → Onward a' b' →
      post v b v' b' →
      post' v b v' b') : Agrees swaps m x a x' a' post' := by
  refine Agree.mono h fun r r' hr => ?_
  obtain ⟨htwins, hon, hon', hpost⟩ := hr
  exact ⟨htwins, hon, hon', himp _ _ _ _ htwins hon hon' hpost⟩

theorem symm {x : Assemble β} {x' : Assemble β'}
    (h : Agrees swaps m x a x' a' post) :
    Agrees swaps (flip m) x' a' x a fun v' b' v b => post v b v' b' := by
  refine (Agree.symm h).mono fun r r' hr => ?_
  obtain ⟨htwins, hon, hon', hpost⟩ := hr
  exact ⟨htwins.symm, hon', hon, hpost⟩

theorem get_bind {f : Assembly → Assemble β} {f' : Assembly → Assemble β'}
    (h : Agrees swaps m (f a) a (f' a') a' post) :
    Agrees swaps m (MonadState.get >>= f) a (MonadState.get >>= f') a' post :=
  h

/-- Checks that do not look at the assemblies leave them alone. -/
theorem lift_bind {x : Except Cause α} {x' : Except Cause α'}
    {f : α → Assemble β} {f' : α' → Assemble β'} {R : α → α' → Prop}
    (hx : Agree R x x')
    (h : ∀ v v', R v v' → Agrees swaps m (f v) a (f' v') a' post) :
    Agrees swaps m ((liftM x : Assemble α) >>= f) a
        ((liftM x' : Assemble α') >>= f') a' post := by
  cases hx with
  | error cause => exact .error cause
  | ok related => exact h _ _ related

/-- Steps that leave assemblies alone agree as they do without them. -/
theorem mapM_lift_bind {γ γ' : Type} {f : γ → Except Cause α}
    {f' : γ' → Except Cause α'} {xs : List γ} {xs' : List γ'}
    {k : List α → Assemble β} {k' : List α' → Assemble β'}
    {R : List α → List α' → Prop} (hx : Agree R (xs.mapM f) (xs'.mapM f'))
    (h : ∀ vs vs', R vs vs' → Agrees swaps m (k vs) a (k' vs') a' post) :
    Agrees swaps m ((xs.mapM fun x => (liftM (f x) : Assemble α)) >>= k) a
      ((xs'.mapM fun x => (liftM (f' x) : Assemble α')) >>= k') a' post := by
  rw [mapM_lift, mapM_lift]
  exact lift_bind hx h

/-- A step of one of the programs that changes nothing. -/
theorem right_bind {x : Assemble β} {x' : Assemble α'} {f' : α' → Assemble β'}
    {v' : α'} (hx : x'.run a' = .ok (v', a'))
    (h : Agrees swaps m x a (f' v') a' post) :
    Agrees swaps m x a (x' >>= f') a' post := by
  unfold Agrees
  rw [StateT.run_bind, hx]
  exact h

/-- What each pair of elements agrees on, lists of them do. -/
theorem mapM {γ γ' : Type} {R : γ → γ' → Prop} {f : γ → Assemble α}
    {f' : γ' → Assemble α} {xs : List γ} {xs' : List γ'}
    (hxs : List.Forall₂ R xs xs')
    (each : ∀ x x' b b', R x x' → Twins swaps m b b' → Onward a b →
      Onward a' b' → Agrees swaps m (f x) b (f' x') b' fun v _ v' _ => v = v')
    (h : Twins swaps m a a') :
    Agrees swaps m (xs.mapM f) a (xs'.mapM f') a' fun vs _ vs' _ => vs
        = vs' := by
  induction hxs generalizing a a' with
  | nil => exact .pure h rfl
  | cons hhead _ ih =>
      rw [List.mapM_cons, List.mapM_cons]
      refine (each _ _ a a' hhead h (.refl a) (.refl a')).bind
        fun v b v' b' hb hon hon' hv => ?_
      refine (ih (fun x x' c c' hx hc hon₂ hon₂' =>
        each x x' c c' hx hc (hon.trans hon₂) (hon'.trans hon₂')) hb).bind
          fun vs c vs' c' hc _ _ hvs => ?_
      rw [hv, hvs]
      exact .pure hc rfl

/-- Going through one list agrees if every step does. -/
theorem forM {γ : Type} {f f' : γ → Assemble Unit} {xs : List γ}
    (each : ∀ x b b', Twins swaps m b b' →
      Agrees swaps m (f x) b (f' x) b' fun _ _ _ _ => True)
        (h : Twins swaps m a a') :
    Agrees swaps m (xs.forM f) a (xs.forM f') a' fun _ _ _ _ => True := by
  induction xs generalizing a a' with
  | nil => exact .pure h trivial
  | cons x xs ih => exact (each x a a' h).bind fun _ _ _ _ hb _ _ _ => ih hb

/-- Folding lists that match agrees if every step does. -/
theorem foldlM {σ γ γ' : Type} {R : γ → γ' → Prop} {f : σ → γ → Assemble σ}
    {f' : σ → γ' → Assemble σ} {xs : List γ} {xs' : List γ'}
    (hxs : List.Forall₂ R xs xs')
    (each : ∀ s x x' b b', R x x' → Twins swaps m b b' →
      Agrees swaps m (f s x) b (f' s x') b' fun v _ v' _ => v = v')
    (start : σ) (h : Twins swaps m a a') :
    Agrees swaps m (xs.foldlM f start) a (xs'.foldlM f' start) a'
        fun v _ v' _ => v = v' := by
  induction hxs generalizing a a' start with
  | nil => exact .pure h rfl
  | cons hhead _ ih =>
      rw [List.foldlM_cons, List.foldlM_cons]
      refine (each start _ _ a a' hhead h).bind fun v b v' b' hb _ _ hv => ?_
      rw [hv]
      exact ih v' hb

end Agrees

-- ============================================================== states

/-- Twins with twin states added are twins. -/
private theorem twins_push {m₁ m₂ : Machine} (h : m₁.Twins swaps m₂)
    {state state' : Machine.State} (hstate : state.Twins swaps state') :
    ({ m₁ with states := m₁.states.push state } : Machine).Twins swaps
      { m₂ with states := m₂.states.push state' } :=
  (h.abreast.push hstate).twins h.codes

/-- A new state goes on, and is made. -/
private theorem onward_pushed (a : Assembly) (stateNames : NameSupply)
    (state : Machine.State) :
    Onward a (a.pushed stateNames state)
      ∧ (a.pushed stateNames state).Made a.machine.size state.kind := by
  have hsize : (a.pushed stateNames state).machine.size = a.machine.size + 1 :=
    Array.size_push state
  have hkept : Kept a (a.pushed stateNames state) :=
    ⟨hsize ▸ Nat.le_succ _, fun s hs =>
      congrArg _ (Machine.state_push_of_lt hs state)⟩
  exact ⟨.of_kept hkept rfl, hsize ▸ Nat.lt_succ_self _,
    congrArg Machine.State.kind (Machine.state_push_size a.machine state)⟩

/-- States added alike, or of counterpart kinds where swaps are admitted. -/
theorem addState_agrees (h : Twins swaps m a a') (nodeName : String)
    (transform : Option Transform) {kind kind' : Machine.StateKind}
    (hkinds : kind = kind' ∨ swaps ∧ kind.Counterparts kind') :
    Agrees swaps m (addState nodeName kind transform) a
      (addState nodeName kind' transform) a'
      fun s b s' b' => s = s' ∧ b.Made s kind ∧ b'.Made s' kind'
          ∧ b.entered = a.entered := by
  have hstate : ∀ name,
      ({ name, nodeName, kind, transform } : Machine.State).Twins swaps
      { name, nodeName, kind := kind', transform } := by
    intro name
    rcases hkinds with rfl | ⟨hswaps, hkinds⟩
    · exact Or.inl rfl
    · exact Or.inr ⟨hswaps, ⟨hkinds, rfl, rfl, rfl, rfl, fun _ => rfl⟩, rfl⟩
  obtain ⟨hon, hmade⟩ := onward_pushed a (a.stateNames.alloc nodeName).2
    { name := (a.stateNames.alloc nodeName).1, nodeName, kind, transform }
  obtain ⟨hon', hmade'⟩ := onward_pushed a' (a'.stateNames.alloc nodeName).2
    { name := (a'.stateNames.alloc nodeName).1, nodeName,
      kind := kind', transform }
  refine .ok ⟨?_, hon, hon', h.machine.size, hmade, hmade', rfl⟩
  rw [← h.stateNames]
  exact ⟨twins_push h.machine (hstate _), rfl, h.codeNames,
    h.entered, h.inside⟩

/-- Nodes that are matched are entered with one state. -/
theorem enter_agrees (hm : Relator.BiUnique m) (h : Twins swaps m a a')
    {n n' : NodeId} (hn : m n n') (hnew : a.stateOf? n = none) (s : StateId) :
    Agrees swaps m (enter n s) a (enter n' s) a' fun _ b _ b' =>
      b.stateOf? n = some s
      ∧ b.unentered < a.unentered ∧ b'.unentered < a'.unentered := by
  obtain ⟨hin, hin'⟩ := h.inside n n' hn
  have hnew' : a'.stateOf? n' = none := (h.entered n n' hn).symm.trans hnew
  have honward : ∀ {a : Assembly} {n : NodeId}, n < a.entered.size →
      a.stateOf? n = none →
      Onward a (a.entering n s) := by
    intro a n hin hnew
    refine ⟨⟨Nat.le_refl _, fun _ _ => rfl⟩, Array.size_setIfInBounds,
      fun k t hk => ?_,
      Nat.le_of_lt (unentered_entering hin hnew s)⟩
    rw [stateOf_entering hin, if_neg fun heq => ?_]
    · exact hk
    · rw [heq, hnew] at hk
      cases hk
  have htwins : Twins swaps m (a.entering n s) (a'.entering n' s) := by
    refine ⟨h.machine, h.stateNames, h.codeNames, fun k k' hk => ?_,
      fun k k' hk => ?_⟩
    · rw [stateOf_entering hin, stateOf_entering hin', h.entered k k' hk]
      have hiff : k = n ↔ k' = n' := by
        constructor
        · rintro rfl
          exact hm.2 hk hn
        · rintro rfl
          exact hm.1 hk hn
      simp only [hiff]
    · have hsize : ∀ (a : Assembly) (n : NodeId), (a.entering n s).entered.size
          = a.entered.size :=
        fun a n => Array.size_setIfInBounds
      rw [hsize, hsize]
      exact h.inside k k' hk
  have hentered : (a.entering n s).stateOf? n = some s := by
    rw [stateOf_entering hin, if_pos rfl]
  exact .ok ⟨htwins, honward hin hnew, honward hin' hnew', hentered,
    unentered_entering hin hnew s, unentered_entering hin' hnew' s⟩

/-- States that are changed alike, and keep their kinds. -/
private theorem changed_agrees (h : Twins swaps m a a') (s : StateId)
    (change change' : Machine.State → Machine.State)
    (hkind : ∀ state, (change state).kind = state.kind)
    (hkind' : ∀ state, (change' state).kind = state.kind)
    (hchange : (change (a.machine.state s)).Twins swaps
      (change' (a'.machine.state s))) :
    Twins swaps m (a.changed s change) (a'.changed s change')
      ∧ Onward a (a.changed s change)
      ∧ Onward a' (a'.changed s change') := by
  have honward : ∀ (a : Assembly) {change : Machine.State → Machine.State},
      (∀ state, (change state).kind = state.kind) →
          Onward a (a.changed s change) := by
    intro a change hkind
    have hsize : (a.changed s change).machine.size = a.machine.size :=
      Machine.size_modify _ _ _
    refine .of_kept ⟨Nat.le_of_eq hsize.symm, fun t ht => ?_⟩ rfl
    rw [state_changed ht]
    split
    · exact hkind _
    · rfl
  exact ⟨⟨h.machine.modify s hchange, h.stateNames, h.codeNames,
    h.entered, h.inside⟩,
    honward a hkind, honward a' hkind'⟩

/-- States of one kind may be given the same edges. -/
theorem setEdges_agrees (h : Twins swaps m a a') {s : StateId}
    {kind : Machine.StateKind} (hmade : a.Made s kind)
    (hmade' : a'.Made s kind) (edges : List Machine.Edge) :
    Agrees swaps m (setEdges s edges) a (setEdges s edges) a' fun _ _ _ _ =>
        True := by
  have hsame := (h.machine.states s).eq_of_kind (hmade.2.trans hmade'.2.symm)
  obtain ⟨htwins, hon, hon'⟩ := changed_agrees h s ({ · with edges })
    ({ · with edges })
    (fun _ => rfl) (fun _ => rfl) (Or.inl (by rw [hsame]))
  exact .ok ⟨htwins, hon, hon', trivial⟩

/-- States of counterpart kinds may be given edges among which every byte is
chosen alike. -/
theorem setEdges_swapped (h : Twins swaps m a a') {s : StateId}
    {kind kind' : Machine.StateKind} (hmade : a.Made s kind)
    (hmade' : a'.Made s kind') (hkinds : kind.Counterparts kind')
    {edges edges' : List Machine.Edge}
    (hchoice : ∀ b, Machine.choose edges b = Machine.choose edges' b)
    (horder : firsts [] (edges.map (·.target))
      = firsts [] (edges'.map (·.target))) :
    Agrees swaps m (setEdges s edges) a (setEdges s edges') a' fun _ _ _ _ =>
        True := by
  have hswapped : swaps
      ∧ (a.machine.state s).Swapped (a'.machine.state s) := by
    refine (h.machine.states s).resolve_left fun heq => hkinds.ne ?_
    rw [← hmade.2, ← hmade'.2, heq]
  obtain ⟨hswaps, hswapped⟩ := hswapped
  have hchange : ({ a.machine.state s with edges } : Machine.State).Twins swaps
      { a'.machine.state s with edges := edges' } := by
    refine Or.inr
      ⟨hswaps,
      ⟨hswapped.kinds, hswapped.name, hswapped.nodeName, hswapped.transform,
      hswapped.otherwise, hchoice⟩, horder⟩
  obtain ⟨htwins, hon, hon'⟩ := changed_agrees h s ({ · with edges })
    ({ · with edges := edges' }) (fun _ => rfl) (fun _ => rfl) hchange
  exact .ok ⟨htwins, hon, hon', trivial⟩

/-- Setting an otherwise edge agrees. -/
theorem setOtherwise_agrees (h : Twins swaps m a a') (s : StateId)
    (edge : Machine.Edge) :
    Agrees swaps m (setOtherwise s edge) a (setOtherwise s edge) a'
        fun _ _ _ _ => True := by
  have hchange :
      ({ a.machine.state s with otherwise := some edge } : Machine.State).Twins
      swaps
      { a'.machine.state s with otherwise := some edge } := by
    rcases h.machine.states s with hsame | ⟨hswaps, hswapped⟩
    · rw [hsame]
      exact Or.inl rfl
    · exact Or.inr ⟨hswaps, ⟨hswapped.kinds, hswapped.name, hswapped.nodeName,
        hswapped.transform, rfl, hswapped.choice⟩, hswapped.order⟩
  obtain ⟨htwins, hon, hon'⟩ :=
    changed_agrees h s ({ · with otherwise := some edge })
    ({ · with otherwise := some edge }) (fun _ => rfl) (fun _ => rfl) hchange
  exact .ok ⟨htwins, hon, hon', trivial⟩

theorem fillOtherwise_agrees (h : Twins swaps m a a') (s : StateId)
    (edge : Machine.Edge) :
    Agrees swaps m (fillOtherwise edge s) a (fillOtherwise edge s) a'
        fun _ _ _ _ => True := by
  let fill := fun state : Machine.State =>
    if state.otherwise.isNone then
      { state with otherwise := some edge } else state
  have hkind : ∀ state, (fill state).kind = state.kind := by
    intro state
    show (if _ then _ else _ : Machine.State).kind = state.kind
    split <;> rfl
  have hchange : (fill (a.machine.state s)).Twins swaps
      (fill (a'.machine.state s)) := by
    rcases h.machine.states s with hsame | ⟨hswaps, hswapped⟩
    · rw [hsame]
      exact Or.inl rfl
    · show (if _ then _ else _ : Machine.State).Twins swaps
        (if _ then _ else _)
      rw [← hswapped.otherwise]
      split
      · exact Or.inr
          ⟨hswaps, ⟨hswapped.kinds, hswapped.name, hswapped.nodeName,
          hswapped.transform, rfl, hswapped.choice⟩, hswapped.order⟩
      · exact Or.inr ⟨hswaps, hswapped⟩
  obtain ⟨htwins, hon, hon'⟩ :=
    changed_agrees h s fill fill hkind hkind hchange
  exact .ok ⟨htwins, hon, hon', trivial⟩

-- =============================================================== codes

/-- Adding a code keeps twins, and goes on. -/
private theorem coded_agrees (h : Twins swaps m a a') (codeNames : NameSupply)
    (code : Code) :
    Twins swaps m (a.coded codeNames code) (a'.coded codeNames code)
      ∧ Onward a (a.coded codeNames code)
          ∧ Onward a' (a'.coded codeNames code) := by
  have honward : ∀ a : Assembly, Onward a (a.coded codeNames code) :=
    fun a => .of_kept ⟨Nat.le_refl _, fun _ _ => rfl⟩ rfl
  refine ⟨⟨⟨?_, h.machine.size, h.machine.states⟩, h.stateNames, rfl,
    h.entered, h.inside⟩,
    honward a, honward a'⟩
  exact congrArg (·.push code) h.machine.codes

/-- Codes are added alike, and no node is entered by that. -/
theorem addCode_agrees (h : Twins swaps m a a') (code : Code) :
    Agrees swaps m (addCode code) a (addCode code) a' fun id b id' _ =>
      id = id' ∧ b.entered = a.entered := by
  have hcode : ∀ id, a'.machine.code id = a.machine.code id := by
    intro id
    unfold Machine.code
    rw [h.machine.codes]
  unfold addCode
  refine Agrees.get_bind ?_
  have hfind : a'.machine.codes.findIdx? (·.key == code.key)
      = a.machine.codes.findIdx? (·.key == code.key) := by
    rw [h.machine.codes]
  rw [hfind, ← h.codeNames]
  cases a.machine.codes.findIdx? (·.key == code.key) with
  | some id =>
      dsimp only
      rw [hcode id]
      split
      · exact .pure h ⟨rfl, rfl⟩
      · exact .throw _
  | none =>
      by_cases hexternal : code.kind.isExternal = true
      · rw [if_pos hexternal]
        obtain ⟨htwins, hon, hon'⟩ :=
          coded_agrees h a.codeNames { code with name := code.name }
        exact .ok ⟨htwins, hon, hon', congrArg Array.size h.machine.codes, rfl⟩
      · rw [if_neg hexternal]
        obtain ⟨htwins, hon, hon'⟩ :=
          coded_agrees h (a.codeNames.alloc code.name).2
          { code with name := (a.codeNames.alloc code.name).1 }
        exact .ok ⟨htwins, hon, hon', congrArg Array.size h.machine.codes, rfl⟩

end Bytewise.Assembly

/-
Assemblies that do not fail, and what their states look like.

`Answers` says what holds if an assembly answers; here is why it does. A
graph fails in its assembly only where it breaks a rule of its own
(`Accepted`), and every step of the assembly of one that breaks none
answers, and leaves the assembly in form (`Forms`): its codes are codes of
the graph, no two states have one name, and a state has no keyed edges, or
such as states of its kind may have. That is a fact of each state alone,
so unlike `Tracks` it needs no account of which states are finished.
-/
import Mathlib.Data.List.Nodup
import Bytewise.Proofs.NameSupply
import Bytewise.Proofs.Graph.Allocation
import Bytewise.Proofs.Parser.Image
import Bytewise.Proofs.Trie.Formed

namespace Bytewise

-- ================================================================ rules

namespace Graph

/-- The code is one that a parser of the graph calls. -/
inductive Uses (g : Graph) (root : NodeId) : Code → Prop where
  | invoke {n : NodeId} {ref : CodeRef} (reached : g.Reaches root n)
      (kind : (g.node n).kind = .invoke ref) : Uses g root (g.code ref)
  | span {n : NodeId} {span : SpanId} (reached : g.Reaches root n)
      (kind : (g.node n).kind = .spanStart span) : Uses g root
      (g.code (g.spanCallback span))

/-- A graph that breaks no rule of the assembly, in what `root` leads to. -/
structure Accepted (g : Graph) (root : NodeId) : Prop where
  /-- Only errors have no otherwise edge. -/
  otherwise : ∀ n, g.Reaches root n → (g.node n).otherwise = none →
    ∃ code reason, (g.node n).kind = .error code reason
  /-- Where a match node looks at a byte and leaves it, no other key begins
  with that byte. -/
  peeks : ∀ n, g.Reaches root n → (∃ t, (g.node n).kind = .dispatch t) →
    ∀ e ∈ (g.node n).edges, e.noAdvance = true →
      ∀ b, e.key = some (.bytes [b]) →
      ∀ o ∈ (g.node n).edges, o.key ≠ e.key → o.firstByte? ≠ some b
  /-- Callbacks of one name are of one kind. -/
  codes : ∀ c d, g.Uses root c → g.Uses root d → c.kind.isExternal = true →
    d.kind.isExternal = true → c.name = d.name → c.kind = d.kind
  /-- A span that can be ended can be started. -/
  ends : ∀ n span, g.Reaches root n → (g.node n).kind = .spanEnd span →
    ∃ start, g.Reaches root start ∧ (g.node start).kind = .spanStart span

variable {g : Graph} {root n : NodeId}

/-- Every reached node but an error has an otherwise edge. -/
theorem Accepted.exists_otherwise (h : g.Accepted root)
    (hreach : g.Reaches root n)
    (hkind : ∀ code reason, (g.node n).kind ≠ .error code reason) :
    ∃ edge, (g.node n).otherwise = some edge := by
  cases hother : (g.node n).otherwise with
  | some edge => exact ⟨edge, rfl⟩
  | none =>
      obtain ⟨code, reason, herror⟩ := h.otherwise n hreach hother
      exact absurd herror (hkind code reason)

/-- The keys of a match node that breaks no rule have their peeks apart. -/
theorem Accepted.peeksApart (h : g.Accepted root) (hg : g.Sound)
    (hreach : g.Reaches root n) (hn : n < g.size) {t : Option Transform}
    (hkind : (g.node n).kind = .dispatch t) :
    Trie.PeeksApart (g.node n).entries := by
  intro e he hpeek
  obtain ⟨edge, hedge, hentry⟩ := mem_entries.mp he
  obtain ⟨hkey, _, hstays, _⟩ := entry?_eq_some.mp hentry
  have hfits := (hg.nodes n hn).keyed edge hedge
  rw [hkind] at hfits
  obtain ⟨bs, hbs, _, hshort⟩ := hfits
  have hlen := (hshort (hstays.trans hpeek)).1
  obtain rfl : bs = e.key :=
    EdgeKey.bytes.inj (Option.some.inj (hbs.symm.trans hkey))
  obtain ⟨b, hb⟩ := List.length_eq_one_iff.mp hlen
  refine ⟨hlen.le, fun o ho hprefix => ?_⟩
  obtain ⟨other, hother, hoentry⟩ := mem_entries.mp ho
  obtain ⟨hokey, _⟩ := entry?_eq_some.mp hoentry
  obtain ⟨rest, hrest⟩ := hprefix
  by_contra hne
  refine h.peeks n hreach ⟨t, hkind⟩ edge hedge (hstays.trans hpeek) b
    (hb ▸ hkey) other hother
    (fun hsame => hne ?_) ?_
  · -- entries with one key are one entry
    rw [hokey, hkey] at hsame
    have hkeys := EdgeKey.bytes.inj (Option.some.inj hsame)
    have hnodup : ((g.node n).entries.map (·.key)).Nodup :=
      List.pairwise_map.mpr (hg.nodes n hn).entries_distinct
    exact List.inj_on_of_nodup_map hnodup ho he hkeys
  · rw [hb] at hrest
    simp [Edge.firstByte?, EdgeKey.firstByte?, hokey, ← hrest]

end Graph

-- ================================================================ shape

/-- The keys that the edges of a state of this kind have; a table has fewer
than `limit` edges. -/
def Machine.StateKind.KeysFit (limit : Nat)
    (keys : List (Option Machine.Key)) :
    Machine.StateKind → Prop
  | .single =>
    ∃ bs : List UInt8, keys = bs.map (some ∘ .byte) ∧ bs.Pairwise (· < ·)
  | .table => ∃ groups : List (List UInt8), keys = groups.map (some ∘ .bytes)
      ∧ groups.length < limit ∧ (∀ group ∈ groups, group ≠ [])
      ∧ groups.Pairwise List.Disjoint
  | .sequence =>
    ∃ literal : List UInt8, keys = [some (.bytes literal)] ∧ 2 ≤ literal.length
  | .invoke _ =>
    ∃ codes : List Int32, keys = codes.map (some ∘ .code) ∧ codes.Nodup
  | _ => keys = []

namespace Assembly

variable {bp : Blueprint} {root : NodeId} {a a' : Assembly} {α β : Type}

/-- An assembly in form. -/
structure Formed (bp : Blueprint) (root : NodeId) (a : Assembly) : Prop where
  used : ∀ c, c < a.machine.codes.size → ∃ code, bp.graph.Uses root code
    ∧ (a.machine.code c).kind = code.kind
    ∧ (code.kind.isExternal = true → (a.machine.code c).name = code.name)
  taken : ∀ s, s < a.machine.size →
    (a.machine.state s).name ∈ a.stateNames.used
  names : ∀ s t, s < a.machine.size → t < a.machine.size →
    (a.machine.state s).name = (a.machine.state t).name → s = t
  keys : ∀ s, s < a.machine.size → (a.machine.state s).edges = []
    ∨ (a.machine.state s).kind.KeysFit bp.options.maxTableTargets
        ((a.machine.state s).edges.map (·.key))

/-- An assembly whose states stay, and stay what they are. -/
structure Kept (a a' : Assembly) : Prop where
  size : a.machine.size ≤ a'.machine.size
  kinds : ∀ s, s < a.machine.size →
    (a'.machine.state s).kind = (a.machine.state s).kind

theorem Kept.refl (a : Assembly) : Kept a a where
  size := Nat.le_refl _
  kinds _ _ := rfl

theorem Kept.trans {a'' : Assembly} (h : Kept a a') (h' : Kept a' a'') :
    Kept a a'' where
  size := Nat.le_trans h.size h'.size
  kinds s hs := (h'.kinds s (Nat.lt_of_lt_of_le hs h.size)).trans
    (h.kinds s hs)

/-- The state is there, and of this kind. -/
def Made (a : Assembly) (s : StateId) (kind : Machine.StateKind) : Prop :=
  s < a.machine.size ∧ (a.machine.state s).kind = kind

/-- A state that was made stays of its kind. -/
theorem Made.keep {s : StateId} {kind : Machine.StateKind}
    (hmade : a.Made s kind) (h : Kept a a') : a'.Made s kind :=
  ⟨Nat.lt_of_lt_of_le hmade.1 h.size, (h.kinds s hmade.1).trans hmade.2⟩

-- ============================================================ programs

/-- The program answers, and leaves an assembly in form. -/
def Forms (bp : Blueprint) (root : NodeId) (x : Assemble α) (a : Assembly)
    (post : α → Assembly → Prop) : Prop :=
  ∃ v a', x.run a = .ok (v, a') ∧ Formed bp root a' ∧ Kept a a' ∧ post v a'

theorem Forms.pure {v : α} {post : α → Assembly → Prop} (h : Formed bp root a)
    (hpost : post v a) :
    Forms bp root (Pure.pure v) a post :=
  ⟨v, a, rfl, h, Kept.refl a, hpost⟩

/-- One step forms states after another. -/
theorem Forms.bind {x : Assemble α} {f : α → Assemble β}
    {mid : α → Assembly → Prop} {post : β → Assembly → Prop}
    (hx : Forms bp root x a mid)
    (hf : ∀ v b, Formed bp root b → Kept a b → mid v b →
      Forms bp root (f v) b post) :
    Forms bp root (x >>= f) a post := by
  obtain ⟨v, b, hrun, hformed, hkept, hmid⟩ := hx
  obtain ⟨w, c, hrest, hformed', hkept', hpost⟩ := hf v b hformed hkept hmid
  refine ⟨w, c, ?_, hformed', hkept.trans hkept', hpost⟩
  rw [StateT.run_bind, hrun]
  exact hrest

theorem Forms.mono {x : Assemble α} {post post' : α → Assembly → Prop}
    (h : Forms bp root x a post)
    (himp : ∀ v b, Kept a b → post v b → post' v b) :
    Forms bp root x a post' := by
  obtain ⟨v, b, hrun, hformed, hkept, hpost⟩ := h
  exact ⟨v, b, hrun, hformed, hkept, himp v b hkept hpost⟩

theorem Forms.get_bind {f : Assembly → Assemble β} {post : β → Assembly → Prop}
    (h : Forms bp root (f a) a post) :
    Forms bp root (MonadState.get >>= f) a post :=
  h

/-- A check that does not look at the assembly leaves it alone. -/
theorem Forms.lift_bind {x : Except Cause α} {f : α → Assemble β} {v : α}
    {post : β → Assembly → Prop} (hx : x = .ok v)
    (h : Forms bp root (f v) a post) :
    Forms bp root ((liftM x : Assemble α) >>= f) a post := by
  subst hx
  exact h

/-- Steps that leave the assembly alone form nothing. -/
theorem Forms.mapM_lift_bind {γ : Type} {f : γ → Except Cause α} {xs : List γ}
    {ys : List α} {k : List α → Assemble β} {post : β → Assembly → Prop}
    (hok : xs.mapM f = .ok ys) (h : Forms bp root (k ys) a post) :
    Forms bp root ((xs.mapM fun x => (liftM (f x) : Assemble α)) >>= k) a
        post := by
  rw [mapM_lift]
  exact .lift_bind hok h

/-- What each element brings about, if it does not depend on the assembly, all
do. -/
theorem Forms.mapM {γ : Type} {f : γ → Assemble α} {xs : List γ}
    {R : γ → α → Prop}
    (each : ∀ x ∈ xs, ∀ b, Formed bp root b →
      Forms bp root (f x) b fun y _ => R x y)
    (h : Formed bp root a) :
    Forms bp root (xs.mapM f) a fun ys _ => List.Forall₂ R xs ys := by
  induction xs generalizing a with
  | nil => exact Forms.pure h .nil
  | cons x xs ih =>
      rw [List.mapM_cons]
      refine (each x List.mem_cons_self a h).bind fun y b hb _ hy => ?_
      refine (ih (fun z hz => each z (List.mem_cons_of_mem x hz)) hb).bind
        fun ys c hc _ hys => ?_
      exact Forms.pure hc (.cons hy hys)

/-- Going through a list forms what its steps do. -/
theorem Forms.forM {γ : Type} {f : γ → Assemble Unit} {xs : List γ}
    (each : ∀ x ∈ xs, ∀ b, Formed bp root b →
      Forms bp root (f x) b fun _ _ => True)
    (h : Formed bp root a) : Forms bp root (xs.forM f) a fun _ _ => True := by
  induction xs generalizing a with
  | nil => exact Forms.pure h trivial
  | cons x xs ih =>
      refine (each x List.mem_cons_self a h).bind fun _ b hb _ _ => ?_
      exact ih (fun z hz => each z (List.mem_cons_of_mem x hz)) hb

theorem Forms.foldlM {σ γ : Type} {f : σ → γ → Assemble σ}
    {xs : List γ} {start : σ}
    (each : ∀ s, ∀ x ∈ xs, ∀ b, Formed bp root b →
      Forms bp root (f s x) b fun _ _ => True)
    (h : Formed bp root a) :
    Forms bp root (xs.foldlM f start) a fun _ _ => True := by
  induction xs generalizing a start with
  | nil => exact Forms.pure h trivial
  | cons x xs ih =>
      rw [List.foldlM_cons]
      refine (each start x List.mem_cons_self a h).bind fun _ b hb _ _ => ?_
      exact ih (fun s z hz => each s z (List.mem_cons_of_mem x hz)) hb

-- ============================================================= actions

/-- A state without edges may be added, if its name is new and is noted. -/
private theorem pushed_forms (h : Formed bp root a) (state : Machine.State)
    {stateNames : NameSupply} (hfresh : state.name ∉ a.stateNames.used)
    (htaken : ∀ name, name ∈ stateNames.used ↔ name = state.name
      ∨ name ∈ a.stateNames.used)
    (hbare : state.edges = []) :
    Formed bp root (a.pushed stateNames state)
      ∧ Kept a (a.pushed stateNames state)
      ∧ (a.pushed stateNames state).Made a.machine.size state.kind := by
  have hold : ∀ s, s < a.machine.size →
      (a.pushed stateNames state).machine.state s = a.machine.state s :=
    fun s hs => Machine.state_push_of_lt hs state
  have hnew : (a.pushed stateNames state).machine.state a.machine.size
      = state :=
    Machine.state_push_size a.machine state
  have hsize : (a.pushed stateNames state).machine.size = a.machine.size + 1 :=
    Array.size_push state
  have hcases : ∀ {s}, s < (a.pushed stateNames state).machine.size →
      s < a.machine.size ∨ s = a.machine.size := fun hs => by
    rw [hsize] at hs
    exact Nat.lt_succ_iff_lt_or_eq.mp hs
  -- the new name is that of no state so far
  have hapart : ∀ s, s < a.machine.size →
      (a.machine.state s).name ≠ state.name :=
    fun s hs heq => hfresh (heq ▸ h.taken s hs)
  refine ⟨⟨h.used, fun s hs => ?_, fun s t hs ht heq => ?_, fun s hs => ?_⟩,
    ⟨?_, fun s hs => congrArg _ (hold s hs)⟩, ?_, congrArg _ hnew⟩
  · rcases hcases hs with hs | rfl
    · rw [hold s hs]
      exact (htaken _).mpr (Or.inr (h.taken s hs))
    · rw [hnew]
      exact (htaken _).mpr (Or.inl rfl)
  · rcases hcases hs with hs | rfl <;> rcases hcases ht with ht | rfl
    · rw [hold s hs, hold t ht] at heq
      exact h.names s t hs ht heq
    · rw [hold s hs, hnew] at heq
      exact absurd heq (hapart s hs)
    · rw [hold t ht, hnew] at heq
      exact absurd heq.symm (hapart t ht)
    · rfl
  · rcases hcases hs with hs | rfl
    · rw [hold s hs]
      exact h.keys s hs
    · rw [hnew]
      exact Or.inl hbare
  · rw [hsize]
    exact Nat.le_succ _
  · rw [hsize]
    exact Nat.lt_succ_self _

/-- A new state may be added under a fresh name. -/
theorem addState_forms (h : Formed bp root a) (nodeName : String)
    (kind : Machine.StateKind) (transform : Option Transform) :
    Forms bp root (addState nodeName kind transform) a fun s b =>
        b.Made s kind := by
  obtain ⟨hformed, hkept, hmade⟩ := pushed_forms h
    { name := (a.stateNames.alloc nodeName).1, nodeName, kind, transform }
    (NameSupply.alloc_notMem a.stateNames nodeName)
      (fun _ => NameSupply.mem_alloc) rfl
  exact ⟨_, _, rfl, hformed, hkept, hmade⟩

/-- A state may be changed, if it keeps its name and its kind and has edges
that its kind may have. -/
private theorem changed_forms (h : Formed bp root a) (s : StateId)
    (change : Machine.State → Machine.State)
    (hname : ∀ state, (change state).name = state.name)
    (hkind : ∀ state, (change state).kind = state.kind)
    (hkeys : s < a.machine.size → (change (a.machine.state s)).edges = []
      ∨ (a.machine.state s).kind.KeysFit bp.options.maxTableTargets
          ((change (a.machine.state s)).edges.map (·.key))) :
    Formed bp root (a.changed s change) ∧ Kept a (a.changed s change) := by
  have hsize : (a.changed s change).machine.size = a.machine.size :=
    Machine.size_modify _ _ _
  have hsame : ∀ t, t < a.machine.size →
      ((a.changed s change).machine.state t).name = (a.machine.state t).name
        ∧ ((a.changed s change).machine.state t).kind
            = (a.machine.state t).kind := by
    intro t ht
    rw [state_changed ht]
    split
    · exact ⟨hname _, hkind _⟩
    · exact ⟨rfl, rfl⟩
  refine ⟨⟨h.used, fun t ht => ?_, fun t u ht hu heq => ?_, fun t ht => ?_⟩,
    Nat.le_of_eq hsize.symm, fun t ht => (hsame t ht).2⟩
  · rw [hsize] at ht
    rw [(hsame t ht).1]
    exact h.taken t ht
  · rw [hsize] at ht hu
    rw [(hsame t ht).1, (hsame u hu).1] at heq
    exact h.names t u ht hu heq
  · rw [hsize] at ht
    rw [(hsame t ht).2, state_changed ht]
    split
    · rename_i hst
      subst hst
      exact hkeys ht
    · exact h.keys t ht

/-- Entering a node leaves states well formed. -/
theorem enter_forms (h : Formed bp root a) (n : NodeId) (s : StateId) :
    Forms bp root (enter n s) a fun _ _ => True :=
  ⟨⟨⟩, a.entering n s, rfl, ⟨h.used, h.taken, h.names, h.keys⟩,
    ⟨Nat.le_refl _, fun _ _ => rfl⟩,
    trivial⟩

theorem setEdges_forms (h : Formed bp root a) {s : StateId}
    {kind : Machine.StateKind} (hmade : a.Made s kind)
    {edges : List Machine.Edge}
    (hkeys : kind.KeysFit bp.options.maxTableTargets (edges.map (·.key))) :
    Forms bp root (setEdges s edges) a fun _ _ => True := by
  have hfit : (a.machine.state s).kind.KeysFit bp.options.maxTableTargets
      (edges.map (·.key)) := by
    rw [hmade.2]
    exact hkeys
  obtain ⟨hformed, hkept⟩ := changed_forms h s ({ · with edges })
    (fun _ => rfl) (fun _ => rfl)
    fun _ => Or.inr hfit
  exact ⟨⟨⟩, _, rfl, hformed, hkept, trivial⟩

theorem setOtherwise_forms (h : Formed bp root a) (s : StateId)
    (edge : Machine.Edge) :
    Forms bp root (setOtherwise s edge) a fun _ _ => True := by
  obtain ⟨hformed, hkept⟩ :=
    changed_forms h s ({ · with otherwise := some edge })
    (fun _ => rfl) (fun _ => rfl) (h.keys s)
  exact ⟨⟨⟩, _, rfl, hformed, hkept, trivial⟩

theorem fillOtherwise_forms (h : Formed bp root a) (s : StateId)
    (edge : Machine.Edge) :
    Forms bp root (fillOtherwise edge s) a fun _ _ => True := by
  have hsame : ∀ state : Machine.State,
      (if state.otherwise.isNone then
        { state with otherwise := some edge } else state)
        = { state with otherwise := state.otherwise <|> some edge } := by
    intro state
    obtain ⟨name, nodeName, kind, transform, edges, otherwise⟩ := state
    cases otherwise <;> rfl
  obtain ⟨hformed, hkept⟩ := changed_forms h s
    (fun state => { state with otherwise := state.otherwise <|> some edge })
    (fun _ => rfl)
    (fun _ => rfl) (h.keys s)
  refine ⟨⟨⟩, _, ?_, hformed, hkept, trivial⟩
  unfold fillOtherwise
  simp only [hsame]
  rfl

/-- A code that the graph uses may be added, if it keeps its name or is an
operation. -/
private theorem coded_forms (h : Formed bp root a) {code : Code}
    (huse : bp.graph.Uses root code) (name : String)
    (hname : code.kind.isExternal = true → name = code.name)
    (codeNames : NameSupply) :
    Formed bp root (a.coded codeNames { code with name })
      ∧ Kept a (a.coded codeNames { code with name }) := by
  refine ⟨⟨fun c hc => ?_, h.taken, h.names, h.keys⟩, Nat.le_refl _,
    fun _ _ => rfl⟩
  have hc : c < (a.machine.codes.push { code with name }).size := hc
  rw [Array.size_push] at hc
  rcases Nat.lt_succ_iff_lt_or_eq.mp hc with hc | rfl
  · rw [show (a.coded codeNames { code with name }).machine.code c
      = a.machine.code c from
      Machine.code_push_of_lt hc _]
    exact h.used c hc
  · rw [show (a.coded codeNames { code with name }).machine.code
      a.machine.codes.size
      = { code with name } from Machine.code_push_size a.machine _]
    exact ⟨code, huse, rfl, hname⟩

/-- Codes of one key are one operation, if the callbacks of a name are of one
kind. -/
private theorem Formed.kind_of_key (h : Formed bp root a)
    (hacc : bp.graph.Accepted root) {code : Code}
    (huse : bp.graph.Uses root code) {id : CodeId}
    (hid : id < a.machine.codes.size)
    (hkey : (a.machine.code id).key = code.key) :
    (a.machine.code id).kind = code.kind := by
  rcases Code.key_eq_iff.mp hkey with ⟨hexternal, hexternal', hname⟩
    | ⟨-, -, hkind⟩
  · obtain ⟨source, hsource, hkind, hsourcename⟩ := h.used id hid
    rw [hkind] at hexternal ⊢
    rw [hsourcename hexternal] at hname
    exact hacc.codes source code hsource huse hexternal hexternal' hname
  · exact hkind

/-- A code that the graph uses has a code of the machine. -/
theorem addCode_forms (h : Formed bp root a) (hacc : bp.graph.Accepted root)
    {code : Code} (huse : bp.graph.Uses root code) :
    Forms bp root (addCode code) a fun _ _ => True := by
  cases added a code with
  | found id hid key kind run => exact ⟨_, _, run, h, Kept.refl a, trivial⟩
  | conflict id hid key kind run =>
      exact absurd (h.kind_of_key hacc huse hid key) kind
  | fresh name codeNames key callback intrinsic run =>
      obtain ⟨hformed, hkept⟩ :=
        coded_forms h huse name (fun he => (callback he).1) codeNames
      exact ⟨_, _, run, hformed, hkept, trivial⟩

end Assembly

end Bytewise

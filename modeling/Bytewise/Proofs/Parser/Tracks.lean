/-
The invariant of an assembly, and what its single actions do to it.

`Tracks` says that a list of roles is right about all states but those
that are still pending: they realize their roles, and the state entered
for a node is one that may stand for it. `Grows` is the frame of every
visit: states that were there stay as they are. Programs of an assembly
may fail; `Answers` says what holds if they do not, and has one rule for
each way in which they are put together.
-/
import Bytewise.Proofs.Machine.Forwarding
import Bytewise.Proofs.Parser.Layout

namespace Bytewise

-- ============================================================= entries

/-- A keyed edge of bytes as tries see it. -/
def Edge.entry? (edge : Edge) : Option TrieEntry :=
  match edge.key with
  | some (.bytes key) => some ⟨key, edge.target, edge.noAdvance, edge.value⟩
  | _ => none

/-- The keyed edges of bytes of a node. -/
def Node.entries (node : Node) : List TrieEntry :=
  node.edges.filterMap Edge.entry?

/-- An edge is an entry of a trie if its key is bytes. -/
theorem entry?_eq_some {edge : Edge} {entry : TrieEntry} :
    edge.entry? = some entry ↔ edge.key = some (.bytes entry.key)
      ∧ edge.target = entry.target
      ∧ edge.noAdvance = entry.noAdvance ∧ edge.value = entry.value := by
  obtain ⟨key, target, noAdvance, value⟩ := edge
  obtain ⟨key', target', noAdvance', value'⟩ := entry
  unfold Edge.entry?
  rcases key with _ | (bs | code)
  · simp
  · simp only [Option.some.injEq, TrieEntry.mk.injEq, EdgeKey.bytes.injEq]
  · simp

/-- The entries of a node come from its edges. -/
theorem mem_entries {node : Node} {entry : TrieEntry} :
    entry ∈ node.entries ↔ ∃ edge ∈ node.edges, edge.entry? = some entry :=
  List.mem_filterMap

/-- Edges with different keys give entries with different keys. -/
theorem Node.Sound.entries_distinct {g : Graph} {node : Node}
    (h : node.Sound g) :
    node.entries.Pairwise fun a b => a.key ≠ b.key := by
  refine List.pairwise_filterMap.mpr
    (h.distinct.imp fun {e e'} hne a ha b hb heq => hne ?_)
  rw [(entry?_eq_some.mp ha).1, (entry?_eq_some.mp hb).1, heq]

namespace Blueprint

/-- The trie of a match node. -/
def Builds (bp : Blueprint) (id : NodeId) (t : Trie) : Prop :=
  Trie.build (bp.graph.node id).name (bp.graph.node id).entries = .ok (some t)

/-- What the state entered for a node may stand for. -/
inductive Enters (bp : Blueprint) (id : NodeId) : Role → Prop where
  | whole (h : ∀ t, (bp.graph.node id).kind = .dispatch t →
      (bp.graph.node id).edges = []) :
      Enters bp id (.whole id)
  | part {t : Trie} (h : bp.Builds id t) : Enters bp id (.part id t)

/-- The leaves of the trie are keyed edges of the node. -/
def Within (bp : Blueprint) (id : NodeId) (t : Trie) : Prop :=
  ∃ entries, Trie.Covers t entries ∧ ∀ e ∈ entries,
    ∃ edge ∈ (bp.graph.node id).edges,
    edge.target = e.target ∧ edge.value = e.value

/-- What a role must say of a graph. -/
structure Allows (bp : Blueprint) (root : NodeId) (role : Role) : Prop where
  reached : bp.graph.Reaches root role.node
  part : ∀ id t, role = .part id t → t.Deep ∧ bp.Within id t

variable {bp : Blueprint} {id : NodeId}

/-- The trie of a node covers its entries in the order of their keys. -/
theorem Builds.covers (hg : bp.graph.Sound) (hid : id < bp.graph.size)
    {t : Trie} (h : bp.Builds id t) :
    Trie.Covers t ((bp.graph.node id).entries.mergeSort TrieEntry.keyLE) :=
  Trie.build_covers (hg.nodes id hid).entries_distinct h

/-- All leaves of the trie of a node come from its edges. -/
theorem Builds.within (hg : bp.graph.Sound) (hid : id < bp.graph.size)
    {t : Trie} (h : bp.Builds id t) : bp.Within id t := by
  refine ⟨_, h.covers hg hid, fun e he => ?_⟩
  obtain ⟨edge, hedge, hentry⟩ :=
    mem_entries.mp ((List.mergeSort_perm _ _).mem_iff.mp he)
  obtain ⟨_, htarget, _, hvalue⟩ := entry?_eq_some.mp hentry
  exact ⟨edge, hedge, htarget, hvalue⟩

/-- A leaf leads where an edge of the node does. -/
theorem Within.leaf {leaf : TrieLeaf} (h : bp.Within id (.leaf leaf)) :
    ∃ edge ∈ (bp.graph.node id).edges, edge.target = leaf.target
        ∧ edge.value = leaf.value := by
  obtain ⟨entries, hcovers, hedges⟩ := h
  cases hcovers with
  | leaf => exact hedges _ (List.mem_singleton.mpr rfl)

/-- What is said of a literal is said of what stands behind it. -/
theorem Within.sequence {literal : List UInt8} {child : Trie}
    (h : bp.Within id (.sequence literal child)) : bp.Within id child := by
  obtain ⟨entries, hcovers, hedges⟩ := h
  cases hcovers with
  | sequence _ _ _ _ below =>
      refine ⟨_, below, fun e he => ?_⟩
      obtain ⟨o, ho, rfl⟩ := List.mem_map.mp he
      exact hedges o ho

/-- What is said of branches is said of each of them. -/
theorem Within.branch {bs : List (UInt8 × Bool × Trie)}
    {fallback : Option TrieLeaf} (h : bp.Within id (.single bs fallback))
    {x : UInt8 × Bool × Trie} (hx : x ∈ bs) :
    bp.Within id x.2.2 := by
  obtain ⟨entries, hcovers, hedges⟩ := h
  cases hcovers with
  | single _ _ _ below _ _ =>
      refine ⟨_, below x hx, fun e he => ?_⟩
      obtain ⟨o, ho, _, rfl⟩ := TrieEntry.mem_derive.mp he
      exact hedges o ho

/-- The fallback of branches leads where an edge of the node does. -/
theorem Within.fallback {bs : List (UInt8 × Bool × Trie)} {leaf : TrieLeaf}
    (h : bp.Within id (.single bs (some leaf))) :
    ∃ edge ∈ (bp.graph.node id).edges, edge.target = leaf.target
        ∧ edge.value = leaf.value := by
  obtain ⟨entries, hcovers, hedges⟩ := h
  cases hcovers with
  | single _ _ _ _ _ ended =>
      obtain ⟨e, he, rfl⟩ := Option.map_eq_some_iff.mp ended.symm
      exact hedges e (List.mem_of_find?_eq_some he)

end Blueprint

namespace Assembly

-- ============================================================ programs

variable {α β : Type} {a a' : Assembly}

/-- If the program answers, then so. -/
def Answers (x : Assemble α) (a : Assembly) (post : α → Assembly → Prop) :
    Prop :=
  ∀ v a', x.run a = .ok (v, a') → post v a'

theorem Answers.pure {v : α} {post : α → Assembly → Prop} (h : post v a) :
    Answers (Pure.pure v) a post := by
  intro w a' hrun
  obtain ⟨rfl, rfl⟩ := Prod.mk.inj (Except.ok.inj hrun)
  exact h

/-- What one step answers is known to the next. -/
theorem Answers.bind {x : Assemble α} {f : α → Assemble β}
    {mid : α → Assembly → Prop} {post : β → Assembly → Prop}
    (hx : Answers x a mid) (hf : ∀ v a', mid v a' → Answers (f v) a' post) :
    Answers (x >>= f) a post := by
  intro w b hrun
  rw [StateT.run_bind] at hrun
  obtain ⟨⟨v, a'⟩, hv, hw⟩ := ok_of_bind hrun
  exact hf v a' (hx v a' hv) w b hw

theorem Answers.mono {x : Assemble α} {post post' : α → Assembly → Prop}
    (h : Answers x a post) (himp : ∀ v a', post v a' → post' v a') :
    Answers x a post' :=
  fun v a' hrun => himp v a' (h v a' hrun)

theorem Answers.throw {cause : Cause} {post : α → Assembly → Prop} :
    Answers (MonadExcept.throw cause : Assemble α) a post :=
  fun _ _ hrun => nomatch hrun

theorem Answers.get_bind {f : Assembly → Assemble β}
    {post : β → Assembly → Prop}
    (h : Answers (f a) a post) : Answers (MonadState.get >>= f) a post :=
  h

/-- A check that does not look at the assembly leaves it alone. -/
theorem Answers.lift_bind {x : Except Cause α} {f : α → Assemble β}
    {post : β → Assembly → Prop} (h : ∀ v, x = .ok v → Answers (f v) a post) :
    Answers ((liftM x : Assemble α) >>= f) a post := by
  intro w a' hrun
  cases x with
  | error cause => cases hrun
  | ok v => exact h v rfl w a' hrun

/-- Checks that do not look at the assembly can be made before it is. -/
theorem mapM_lift {γ : Type} {f : γ → Except Cause α} (xs : List γ) :
    (xs.mapM fun x => (liftM (f x) : Assemble α)) = liftM (xs.mapM f) := by
  induction xs with
  | nil => rfl
  | cons x xs ih =>
      rw [List.mapM_cons, List.mapM_cons, ih]
      cases f x with
      | error cause => rfl
      | ok y =>
          cases xs.mapM f with
          | error cause => rfl
          | ok ys => rfl

/-- Steps that leave the assembly alone answer as they do without it. -/
theorem Answers.mapM_lift_bind {γ : Type} {f : γ → Except Cause α}
    {xs : List γ} {k : List α → Assemble β} {post : β → Assembly → Prop}
    (h : ∀ ys, xs.mapM f = .ok ys → Answers (k ys) a post) :
    Answers ((xs.mapM fun x => (liftM (f x) : Assemble α)) >>= k) a post := by
  rw [mapM_lift]
  exact .lift_bind h

-- =========================================================== invariant

/-- What the states of an assembly stand for, and where an edge to a node
leads. -/
def layout (a : Assembly) (roles : List Role) : Layout where
  machine := a.machine
  roles := roles
  lands n s := a.stateOf? n = some s

/-- How many nodes are not entered. -/
def unentered (a : Assembly) : Nat :=
  a.entered.toList.countP Option.isNone

/-- The roles are right about the assembly, but for pending states. -/
structure Tracks (bp : Blueprint) (root : NodeId) (pending : StateId → Prop)
    (a : Assembly) (roles : List Role) : Prop where
  size : roles.length = a.machine.size
  nodes : a.entered.size = bp.graph.size
  distinct : ∀ i j, i < a.machine.codes.size → j < a.machine.codes.size →
    (a.machine.code i).key = (a.machine.code j).key → i = j
  entered : ∀ n s, a.stateOf? n = some s → ∃ role, roles[s]? = some role
    ∧ bp.Enters n role
  allowed : ∀ role ∈ roles, bp.Allows root role
  settled : ∀ (s : StateId) (role : Role), roles[s]? = some role →
    ¬ pending s → (a.layout roles).Realizes bp role (a.machine.state s)

/-- An assembly that has gone on: it has all it had, and its states are as they
were. -/
structure Grows (a : Assembly) (roles : List Role) (a' : Assembly)
    (roles' : List Role) : Prop where
  layout : (a.layout roles).Extends (a'.layout roles')
  size : a.machine.size ≤ a'.machine.size
  states : ∀ s, s < a.machine.size → a'.machine.state s = a.machine.state s
  unentered : a'.unentered ≤ a.unentered

variable {bp : Blueprint} {root : NodeId} {pending : StateId → Prop}
  {roles roles' : List Role}

theorem Grows.refl : Grows a roles a roles where
  layout := ⟨Nat.le_refl _, fun _ _ => rfl, fun _ _ h => h, fun _ _ h => h⟩
  size := Nat.le_refl _
  states _ _ := rfl
  unentered := Nat.le_refl _

theorem Grows.trans {a'' : Assembly} {roles'' : List Role}
    (h : Grows a roles a' roles')
    (h' : Grows a' roles' a'' roles'') : Grows a roles a'' roles'' where
  layout := h.layout.trans h'.layout
  size := Nat.le_trans h.size h'.size
  states s hs := (h'.states s (Nat.lt_of_lt_of_le hs h.size)).trans
    (h.states s hs)
  unentered := Nat.le_trans h'.unentered h.unentered

/-- A node that was entered stays so. -/
theorem Grows.entered (h : Grows a roles a' roles') {n : NodeId} {s : StateId}
    (hs : a.stateOf? n = some s) : a'.stateOf? n = some s :=
  h.layout.lands n s hs

/-- States that have a role are states of the machine. -/
theorem Tracks.lt (h : Tracks bp root pending a roles) {s : StateId}
    {role : Role} (hs : roles[s]? = some role) : s < a.machine.size := by
  rw [← h.size]
  exact (List.getElem?_eq_some_iff.mp hs).1

/-- A state that realizes its role is pending no more. -/
theorem Tracks.settle {pending' : StateId → Prop}
    (h : Tracks bp root pending a roles)
    (hdone : ∀ (s : StateId) (role : Role), roles[s]? = some role → pending s →
      ¬ pending' s → (a.layout roles).Realizes bp role (a.machine.state s)) :
    Tracks bp root pending' a roles where
  size := h.size
  nodes := h.nodes
  distinct := h.distinct
  entered := h.entered
  allowed := h.allowed
  settled s role hs hnot := by
    by_cases hpending : pending s
    · exact hdone s role hs hpending hnot
    · exact h.settled s role hs hpending

-- ============================================================== states

/-- The assembly with a state changed. -/
def changed (a : Assembly) (i : StateId)
    (change : Machine.State → Machine.State) : Assembly :=
  { a with machine := a.machine.modifyState i change }

/-- The states of a layout do not matter to what it says of others. -/
theorem extends_changed (a : Assembly) (roles : List Role) (i : StateId)
    (change : Machine.State → Machine.State) :
    (a.layout roles).Extends ((a.changed i change).layout roles) :=
  ⟨Nat.le_refl _, fun _ _ => rfl, fun _ _ h => h, fun _ _ h => h⟩

/-- A change reaches one state, and leaves the others as they are. -/
theorem state_changed {s : StateId} (hs : s < a.machine.size) (i : StateId)
    (change : Machine.State → Machine.State) :
    (a.changed i change).machine.state s
      = if i = s then change (a.machine.state s) else a.machine.state s :=
  Machine.state_modify hs i change

/-- Changing a pending state changes nothing that is tracked. -/
theorem Tracks.changed (h : Tracks bp root pending a roles) {i : StateId}
    (hi : pending i) (change : Machine.State → Machine.State) :
    Tracks bp root pending (a.changed i change) roles where
  size := by
    rw [h.size]
    exact (Machine.size_modify _ _ _).symm
  nodes := h.nodes
  distinct := h.distinct
  entered := h.entered
  allowed := h.allowed
  settled s role hs hnot := by
    have hne : i ≠ s := fun heq => hnot (heq ▸ hi)
    rw [state_changed (h.lt hs), if_neg hne]
    exact (extends_changed a roles i change).realizes
      (h.settled s role hs hnot)

/-- Changing a state that is new changes nothing that was there. -/
theorem Grows.changed (h : Grows a roles a' roles') {i : StateId}
    (hi : a.machine.size ≤ i) (change : Machine.State → Machine.State) :
    Grows a roles (a'.changed i change) roles' where
  layout := h.layout.trans (extends_changed a' roles' i change)
  size := by
    refine Nat.le_trans h.size (Nat.le_of_eq ?_)
    exact (Machine.size_modify _ _ _).symm
  states s hs := by
    have hne : i ≠ s := fun heq => absurd hs (Nat.not_lt.mpr (heq ▸ hi))
    rw [state_changed (Nat.lt_of_lt_of_le hs h.size), if_neg hne]
    exact h.states s hs
  unentered := h.unentered

-- ============================================================= actions

/-- The assembly with a state added. -/
def pushed (a : Assembly) (stateNames : NameSupply) (state : Machine.State) :
    Assembly :=
  { a with stateNames, machine.states := a.machine.states.push state }

/-- A new state comes last, with no edges. -/
theorem Answers.addState_bind {nodeName : String} {kind : Machine.StateKind}
    {transform : Option Transform} {f : StateId → Assemble β}
    {post : β → Assembly → Prop}
    (h : ∀ name stateNames, Answers (f a.machine.size)
      (a.pushed stateNames { name, nodeName, kind, transform }) post) :
    Answers (addState nodeName kind transform >>= f) a post :=
  h _ _

/-- States keep their roles when more come. -/
private theorem role_append {s : StateId} {role : Role}
    (h : roles[s]? = some role)
    (more : List Role) : (roles ++ more)[s]? = some role := by
  rw [List.getElem?_append_left (List.getElem?_eq_some_iff.mp h).1]
  exact h

/-- A new state is pending. -/
theorem Tracks.pushed (h : Tracks bp root pending a roles) {role : Role}
    (hrole : bp.Allows root role) (stateNames : NameSupply)
    (state : Machine.State) :
    Tracks bp root (fun s => pending s ∨ s = a.machine.size)
      (a.pushed stateNames state)
      (roles ++ [role]) where
  size := by
    show _ = (a.machine.states.push state).size
    rw [List.length_append, h.size, Array.size_push]
    rfl
  nodes := h.nodes
  distinct := h.distinct
  entered n s hs := by
    obtain ⟨role', hrole', henters⟩ := h.entered n s hs
    exact ⟨role', role_append hrole' _, henters⟩
  allowed role' hmem := by
    rcases List.mem_append.mp hmem with hmem | hmem
    · exact h.allowed role' hmem
    · rw [List.mem_singleton.mp hmem]
      exact hrole
  settled s role' hs hnot := by
    have hne : s ≠ a.machine.size := fun heq => hnot (Or.inr heq)
    have hlt : s < a.machine.size := by
      have hle := (List.getElem?_eq_some_iff.mp hs).1
      rw [List.length_append, h.size, List.length_singleton] at hle
      exact Nat.lt_of_le_of_ne (Nat.le_of_lt_succ hle) hne
    have hold : roles[s]? = some role' := by
      rwa [List.getElem?_append_left (h.size ▸ hlt)] at hs
    have hstate : (a.pushed stateNames state).machine.state s
        = a.machine.state s :=
      Machine.state_push_of_lt hlt state
    rw [hstate]
    refine (Layout.Extends.realizes ?_
      (h.settled s role' hold fun hp => hnot (Or.inl hp)))
    exact ⟨Nat.le_refl _, fun _ _ => rfl, fun _ _ h => role_append h _,
      fun _ _ h => h⟩

theorem grows_pushed (a : Assembly) (roles : List Role) (role : Role)
    (stateNames : NameSupply) (state : Machine.State) :
    Grows a roles (a.pushed stateNames state) (roles ++ [role]) where
  layout := ⟨Nat.le_refl _, fun _ _ => rfl, fun _ _ h => role_append h _,
    fun _ _ h => h⟩
  size := by
    show _ ≤ (a.machine.states.push state).size
    rw [Array.size_push]
    exact Nat.le_succ _
  states _ hs := Machine.state_push_of_lt hs state
  unentered := Nat.le_refl _

/-- The assembly with a node entered. -/
def entering (a : Assembly) (n : NodeId) (s : StateId) : Assembly :=
  { a with entered := a.entered.setIfInBounds n (some s) }

/-- Entering a node says which state stands for it. -/
theorem stateOf_entering {n : NodeId} (hn : n < a.entered.size) (s : StateId)
    (k : NodeId) :
    (a.entering n s).stateOf? k = if k = n then some s else a.stateOf? k := by
  unfold stateOf? entering
  by_cases hk : k = n
  · subst hk
    simp [hn]
  · simp [hk, Ne.symm hk]

/-- Each node that is entered leaves one less to enter. -/
theorem unentered_entering {n : NodeId} (hn : n < a.entered.size)
    (hnew : a.stateOf? n = none)
    (s : StateId) : (a.entering n s).unentered < a.unentered := by
  have hget : a.entered[n] = none := by
    simpa [stateOf?, Array.getD, hn] using hnew
  unfold unentered entering
  have hlt : n < a.entered.toList.length := by
    rw [Array.length_toList]
    exact hn
  rw [Array.toList_setIfInBounds, List.countP_set hlt]
  have hmem : (none : Option StateId) ∈ a.entered.toList := by
    rw [← hget]
    exact Array.mem_toList_iff.mpr (Array.getElem_mem hn)
  have hpos : 0 < a.entered.toList.countP Option.isNone :=
    List.countP_pos_iff.mpr ⟨none, hmem, rfl⟩
  have hcount : a.entered.toList[n].isNone = true := by
    rw [Array.getElem_toList, hget]
    rfl
  rw [if_pos hcount]
  show _ - 1 + 0 < _
  omega

/-- A node that is not entered yet may be entered with a state that may stand
for it. -/
theorem Tracks.entering (h : Tracks bp root pending a roles) {n : NodeId}
    {s : StateId} (hn : n < bp.graph.size) {role : Role}
    (hs : roles[s]? = some role) (henters : bp.Enters n role)
    (hnew : a.stateOf? n = none) :
    Tracks bp root pending (a.entering n s) roles
      ∧ Grows a roles (a.entering n s) roles := by
  have hn' : n < a.entered.size := h.nodes ▸ hn
  have hkept : ∀ k t, a.stateOf? k = some t →
      (a.entering n s).stateOf? k = some t := by
    intro k t hk
    rw [stateOf_entering hn', if_neg ?_, hk]
    intro heq
    obtain rfl := heq
    rw [hnew] at hk
    cases hk
  have hextends : (a.layout roles).Extends ((a.entering n s).layout roles) :=
    ⟨Nat.le_refl _, fun _ _ => rfl, fun _ _ h => h, hkept⟩
  refine ⟨?_, hextends, Nat.le_refl _, fun _ _ => rfl,
    Nat.le_of_lt (unentered_entering hn' hnew s)⟩
  exact {
    size := h.size
    nodes := by
      rw [← h.nodes]
      exact Array.size_setIfInBounds
    distinct := h.distinct
    entered := fun k t hk => by
      rw [stateOf_entering hn'] at hk
      by_cases heq : k = n
      · rw [if_pos heq] at hk
        obtain rfl := Option.some.inj hk
        exact ⟨role, hs, heq ▸ henters⟩
      · rw [if_neg heq] at hk
        exact h.entered k t hk
    allowed := h.allowed
    settled :=
      fun t role' ht hnot => hextends.realizes (h.settled t role' ht hnot) }

/-- What follows on entering a node starts with it entered. -/
theorem Answers.enter_bind {n : NodeId} {s : StateId} {f : Unit → Assemble β}
    {post : β → Assembly → Prop} (h : Answers (f ()) (a.entering n s) post) :
    Answers (enter n s >>= f) a post :=
  h

/-- What follows on setting edges starts with them set. -/
theorem Answers.setEdges_bind {i : StateId} {edges : List Machine.Edge}
    {f : Unit → Assemble β} {post : β → Assembly → Prop}
    (h : Answers (f ()) (a.changed i ({ · with edges })) post) :
    Answers (setEdges i edges >>= f) a post :=
  h

/-- What follows on setting an otherwise edge starts with it set. -/
theorem Answers.setOtherwise_bind {i : StateId} {edge : Machine.Edge}
    {f : Unit → Assemble β} {post : β → Assembly → Prop}
    (h : Answers (f ()) (a.changed i ({ · with otherwise := some edge }))
      post) :
    Answers (setOtherwise i edge >>= f) a post :=
  h

/-- What follows on filling in an otherwise edge starts with a state that has
one. -/
theorem Answers.fillOtherwise_bind {i : StateId} {edge : Machine.Edge}
    {f : Unit → Assemble β} {post : β → Assembly → Prop}
    (h : Answers (f ()) (a.changed i fun state =>
      if state.otherwise.isNone then { state with otherwise := some edge }
      else state) post) :
    Answers (fillOtherwise edge i >>= f) a post :=
  h

-- =============================================================== codes

/-- The name under which a code is kept does not change its key. -/
theorem key_rename {code : Code} {name : String}
    (h : code.kind.isExternal = true → name = code.name) :
    ({ code with name } : Code).key = code.key := by
  obtain ⟨old, kind⟩ := code
  cases kind with
  | external signature =>
      rw [h rfl]
  | _ => rfl

/-- The assembly with a code added. -/
def coded (a : Assembly) (codeNames : NameSupply) (code : Code) : Assembly :=
  { a with codeNames, machine.codes := a.machine.codes.push code }

/-- What adding a code comes to. -/
inductive Added (a : Assembly) (code : Code) : Prop where
  /-- There is one of its key and kind. -/
  | found (id : CodeId) (lt : id < a.machine.codes.size)
      (key : (a.machine.code id).key = code.key)
      (kind : (a.machine.code id).kind = code.kind)
      (run : (addCode code).run a = .ok (id, a))
  /-- There is one of its key, which is of another kind. -/
  | conflict (id : CodeId) (lt : id < a.machine.codes.size)
      (key : (a.machine.code id).key = code.key)
      (kind : (a.machine.code id).kind ≠ code.kind)
      (run : (addCode code).run a = .error (.codeNameConflict code.name))
  /-- It becomes a new one: a callback under its name, an intrinsic under a
  fresh name. -/
  | fresh (name : String) (codeNames : NameSupply)
      (key : ∀ c, c < a.machine.codes.size → (a.machine.code c).key ≠ code.key)
      (callback : code.kind.isExternal = true → name = code.name
        ∧ codeNames = a.codeNames)
      (intrinsic : code.kind.isExternal = false →
        (name, codeNames) = a.codeNames.alloc code.name)
      (run : (addCode code).run a
        = .ok (a.machine.codes.size, a.coded codeNames { code with name }))

/-- One of these it comes to. -/
theorem added (a : Assembly) (code : Code) : Added a code := by
  cases hfind : a.machine.codes.findIdx? (·.key == code.key) with
  | some id =>
      obtain ⟨hlt, hkey, _⟩ := Array.findIdx?_eq_some_iff_getElem.mp hfind
      have hcode : a.machine.code id = a.machine.codes[id] := by
        simp [Machine.code, Array.getD, hlt]
      have hkey : (a.machine.code id).key = code.key := by
        rw [hcode]
        exact beq_iff_eq.mp hkey
      have hrun : (addCode code).run a
          = if sameOperation (a.machine.code id).kind code.kind then
            .ok (id, a)
            else .error (.codeNameConflict code.name) := by
        simp only [addCode, StateT.run_bind, StateT.run_get, pure_bind, hfind]
        split <;> rfl
      by_cases hkind : (a.machine.code id).kind = code.kind
      · rw [if_pos ((sameOperation_iff hkey).mpr hkind)] at hrun
        exact .found id hlt hkey hkind hrun
      · rw [if_neg (mt (sameOperation_iff hkey).mp hkind)] at hrun
        exact .conflict id hlt hkey hkind hrun
  | none =>
      have hkey : ∀ c, c < a.machine.codes.size →
          (a.machine.code c).key ≠ code.key := by
        intro c hc heq
        have hnone := Array.findIdx?_eq_none_iff.mp hfind (a.machine.codes[c])
          (Array.getElem_mem hc)
        have hcode : a.machine.code c = a.machine.codes[c] := by
          simp [Machine.code, Array.getD, hc]
        rw [← hcode, heq, beq_self_eq_true] at hnone
        cases hnone
      cases hexternal : code.kind.isExternal with
      | true =>
          refine .fresh code.name a.codeNames hkey (fun _ => ⟨rfl, rfl⟩)
            (fun h => absurd (hexternal.symm.trans h) (by decide)) ?_
          simp only [addCode, StateT.run_bind, StateT.run_get, pure_bind,
            hfind, hexternal]
          rfl
      | false =>
          refine .fresh (a.codeNames.alloc code.name).1
            (a.codeNames.alloc code.name).2 hkey
            (fun h => absurd (hexternal.symm.trans h) (by decide))
              (fun _ => rfl) ?_
          simp only [addCode, StateT.run_bind, StateT.run_get, pure_bind,
            hfind, hexternal]
          rfl

/-- A code with a new key may be added. -/
theorem Tracks.coded (h : Tracks bp root pending a roles) (code : Code)
    (hfresh : ∀ c, c < a.machine.codes.size →
      (a.machine.code c).key ≠ code.key)
    (codeNames : NameSupply) :
    Tracks bp root pending (a.coded codeNames code) roles
      ∧ Grows a roles (a.coded codeNames code) roles := by
  have hold : ∀ c, c < a.machine.codes.size →
      (a.coded codeNames code).machine.code c = a.machine.code c :=
    fun c hc => Machine.code_push_of_lt hc code
  have hnew : (a.coded codeNames code).machine.code a.machine.codes.size
      = code :=
    Machine.code_push_size a.machine code
  have hsize : (a.coded codeNames code).machine.codes.size
      = a.machine.codes.size + 1 :=
    Array.size_push code
  have hextends : (a.layout roles).Extends
      ((a.coded codeNames code).layout roles) :=
    ⟨hsize ▸ Nat.le_succ _, hold, fun _ _ h => h, fun _ _ h => h⟩
  refine ⟨?_, hextends, Nat.le_refl _, fun _ _ => rfl, Nat.le_refl _⟩
  exact {
    size := h.size
    nodes := h.nodes
    distinct := fun i j hi hj hkey => by
      rw [hsize] at hi hj
      rcases Nat.lt_succ_iff_lt_or_eq.mp hi with hi | rfl
      · rcases Nat.lt_succ_iff_lt_or_eq.mp hj with hj | rfl
        · rw [hold i hi, hold j hj] at hkey
          exact h.distinct i j hi hj hkey
        · rw [hold i hi, hnew] at hkey
          exact absurd hkey (hfresh i hi)
      · rcases Nat.lt_succ_iff_lt_or_eq.mp hj with hj | rfl
        · rw [hold j hj, hnew] at hkey
          exact absurd hkey.symm (hfresh j hj)
        · rfl
    entered := h.entered
    allowed := h.allowed
    settled :=
      fun s role hs hnot => hextends.realizes (h.settled s role hs hnot) }

/-- A code is compiled to one that is there, or to a new one. -/
theorem addCode_answers (h : Tracks bp root pending a roles) (code : Code) :
    Answers (addCode code) a fun id a' => a'.machine.Compiles code id
      ∧ Tracks bp root pending a' roles ∧ Grows a roles a' roles
      ∧ a'.machine.states = a.machine.states ∧ a'.entered = a.entered := by
  intro v a' hrun
  cases added a code with
  | found id lt key kind run =>
      obtain ⟨rfl, rfl⟩ := Prod.mk.inj (Except.ok.inj (hrun.symm.trans run))
      exact ⟨⟨lt, key, (sameOperation_iff key).mpr kind⟩, h,
        Grows.refl, rfl, rfl⟩
  | conflict id lt key kind run => exact nomatch hrun.symm.trans run
  | fresh name codeNames key callback intrinsic run =>
      obtain ⟨rfl, rfl⟩ := Prod.mk.inj (Except.ok.inj (hrun.symm.trans run))
      have hkey : ({ code with name } : Code).key = code.key :=
        key_rename fun hexternal => (callback hexternal).1
      obtain ⟨htracks, hgrows⟩ := h.coded { code with name }
        (fun c hc => by rw [hkey]; exact key c hc) codeNames
      have hnew : (a.coded codeNames { code with name }).machine.code
          a.machine.codes.size
          = { code with name } := Machine.code_push_size a.machine _
      refine ⟨⟨?_, ?_, ?_⟩, htracks, hgrows, rfl, rfl⟩
      · show _ < (a.machine.codes.push { code with name }).size
        rw [Array.size_push]
        exact Nat.lt_succ_self _
      · rw [hnew, hkey]
      · rw [hnew]
        exact (sameOperation_iff hkey).mpr rfl

end Assembly

end Bytewise

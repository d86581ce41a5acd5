/-
What an assembly is put together from.

An assembly adds states and codes, enters nodes, gives states their edges,
and fails. All else that it does is composition, and it looks at nothing
but which nodes are entered. So what holds of these actions, and is kept
by composition, holds of what a graph is assembled by
(`Inherited.assemble`), whether it is said of one run of a program or of
two of them.
-/
import Bytewise.Parser.Assembly
import Bytewise.Proofs.Trie.Covers

namespace Bytewise.Assembly

/-- A property of programs that the actions have, and that composition
keeps. -/
structure Inherited (P : (α : Type) → Assemble α → Prop) : Prop where
  pure : ∀ {α : Type} (v : α), P α (Pure.pure v)
  bind : ∀ {α β : Type} {x : Assemble α} {f : α → Assemble β}, P α x →
    (∀ v, P β (f v)) →
    P β (x >>= f)
  /-- A program may ask which state a node is entered with, and for nothing
  else. -/
  ask : ∀ {β : Type} (n : NodeId) (f : Assembly → Assemble β),
    (∀ a b : Assembly, a.stateOf? n = b.stateOf? n → f a = f b) →
    (∀ a, P β (f a)) →
    P β (MonadState.get >>= f)
  /-- Only the name of a code makes adding it fail. -/
  throw : ∀ {α : Type} (cause : Cause),
    (∀ name, cause ≠ .codeNameConflict name) →
    P α (MonadExcept.throw cause)
  addState : ∀ nodeName kind transform,
    P StateId (Assembly.addState nodeName kind transform)
  enter : ∀ n s, P Unit (Assembly.enter n s)
  setEdges : ∀ s edges, P Unit (Assembly.setEdges s edges)
  setOtherwise : ∀ s edge, P Unit (Assembly.setOtherwise s edge)
  fillOtherwise : ∀ edge s, P Unit (Assembly.fillOtherwise edge s)
  addCode : ∀ code, P CodeId (Assembly.addCode code)

namespace Inherited

variable {P : (α : Type) → Assemble α → Prop} {α β γ σ : Type} {bp : Blueprint}
  {go : NodeId → Assemble StateId}

-- ============================================================ programs

/-- A check that does not look at the assembly. -/
theorem lift (hP : Inherited P) {x : Except Cause α}
    (hx : FailsWith (fun cause => ∀ name, cause ≠ .codeNameConflict name) x) :
    P α (liftM x) := by
  cases x with
  | error cause => exact hP.throw cause (hx cause rfl)
  | ok v => exact hP.pure v

/-- What is inherited holds of going through a list if it holds of the
steps. -/
theorem mapM (hP : Inherited P) {f : γ → Assemble α} {xs : List γ}
    (hf : ∀ x, P α (f x)) :
    P (List α) (xs.mapM f) := by
  induction xs with
  | nil => exact hP.pure []
  | cons x xs ih =>
      rw [List.mapM_cons]
      exact hP.bind (hf x) fun y => hP.bind ih fun ys => hP.pure (y :: ys)

theorem forM (hP : Inherited P) {f : γ → Assemble Unit} {xs : List γ}
    (hf : ∀ x, P Unit (f x)) :
    P PUnit (xs.forM f) := by
  induction xs with
  | nil => exact hP.pure ()
  | cons x xs ih => exact hP.bind (hf x) fun _ => ih

theorem foldlM (hP : Inherited P) {f : σ → γ → Assemble σ}
    {xs : List γ} {start : σ}
    (hf : ∀ s x, P σ (f s x)) : P σ (xs.foldlM f start) := by
  induction xs generalizing start with
  | nil => exact hP.pure start
  | cons x xs ih =>
      rw [List.foldlM_cons]
      exact hP.bind (hf start x) fun s => ih

-- =============================================================== tries

/-- It holds of adding a state for a trie. -/
theorem addTrieState (hP : Inherited P) (owner : Blueprint.Owner)
    (kind : Machine.StateKind) :
    P StateId (Blueprint.addTrieState owner kind) := by
  unfold Blueprint.addTrieState
  refine hP.bind (hP.addState _ _ _) fun state => ?_
  refine hP.ask owner.id _ (fun _ _ h => by rw [h]) fun a => ?_
  split
  · exact hP.bind (hP.enter _ _) fun _ => hP.pure _
  · exact hP.pure _

mutual

theorem trie (hP : Inherited P) (hgo : ∀ n, P StateId (go n))
    (owner : Blueprint.Owner) :
    ∀ t : Trie, P (StateId × List StateId) (bp.trie go owner t)
  | .leaf leaf => by
      unfold Blueprint.trie
      exact hP.bind (hgo leaf.target) fun _ => hP.pure _
  | .sequence literal child => by
      unfold Blueprint.trie
      refine hP.bind (hP.addTrieState owner .sequence) fun state => ?_
      refine hP.bind (trie hP hgo owner child) fun _ => ?_
      exact hP.bind (hP.setEdges _ _) fun _ => hP.pure _
  | .single bs fallback => by
      unfold Blueprint.trie
      split
      · refine hP.bind (hP.addTrieState owner .table) fun state => ?_
        refine hP.bind (hP.mapM fun group => ?_) fun edges => ?_
        · exact hP.bind (hgo group.target) fun _ => hP.pure _
        · exact hP.bind (hP.setEdges _ _) fun _ => hP.pure _
      · refine hP.bind (hP.addTrieState owner .single) fun state => ?_
        refine hP.bind (branches hP hgo owner bs) fun _ => ?_
        refine hP.bind (hP.setEdges _ _) fun _ => ?_
        cases fallback with
        | none => exact hP.pure _
        | some leaf =>
            refine hP.bind (hgo leaf.target) fun _ => ?_
            exact hP.bind (hP.setOtherwise _ _) fun _ => hP.pure _

theorem branches (hP : Inherited P) (hgo : ∀ n, P StateId (go n))
    (owner : Blueprint.Owner) :
    ∀ bs : List (UInt8 × Bool × Trie),
      P (List Machine.Edge × List StateId) (bp.branches go owner bs)
  | [] => by
      unfold Blueprint.branches
      exact hP.pure _
  | (key, noAdvance, child) :: rest => by
      unfold Blueprint.branches
      refine hP.bind (trie hP hgo owner child) fun _ => ?_
      exact hP.bind (branches hP hgo owner rest) fun _ => hP.pure _

end

-- =============================================================== nodes

/-- It holds of building a match node. -/
theorem matchNode (hP : Inherited P) (hgo : ∀ n, P StateId (go n))
    (owner : Blueprint.Owner) :
    P StateId (bp.matchNode go owner) := by
  unfold Blueprint.matchNode
  dsimp only
  split
  · refine hP.bind
      (hP.mapM fun edge => hP.lift fun cause hcause name hconflict => ?_)
      fun entries => ?_
    · unfold Blueprint.trieEntry at hcause
      split at hcause
      · cases hcause
      · obtain rfl := Except.error.inj hcause
        cases hconflict
    refine hP.bind (hP.lift fun cause hcause name hconflict => ?_)
      fun built => ?_
    · subst hconflict
      exact Trie.build_fails entries _ hcause
    split
    · refine hP.bind (hP.addState _ _ _) fun state =>
        hP.bind (hP.enter _ _) fun _ => ?_
      exact hP.bind (hgo _) fun _ => hP.bind (hP.setOtherwise _ _) fun _ =>
        hP.pure _
    · exact hP.throw _ nofun
    · refine hP.bind (hP.trie hgo owner _) fun _ => hP.bind (hgo _) fun _ => ?_
      exact hP.bind (hP.forM fun _ => hP.fillOtherwise _ _) fun _ => hP.pure _
  · exact hP.throw _ nofun

/-- It holds of finding the slot of a span. -/
theorem spanSlot (hP : Inherited P) (span : SpanId) (name : String) :
    P (SlotId × CodeId) (bp.spanSlot span name) := by
  unfold Blueprint.spanSlot
  split
  · exact hP.bind (hP.addCode _) fun _ => hP.pure _
  · exact hP.throw _ nofun

/-- It holds of settling the kind of a state. -/
theorem stateKind (hP : Inherited P) (name : String) (kind : NodeKind) :
    P Machine.StateKind (bp.stateKind name kind) := by
  unfold Blueprint.stateKind
  cases kind with
  | invoke ref =>
      dsimp only
      split
      · exact hP.throw _ nofun
      · exact hP.bind (hP.addCode _) fun _ => hP.pure _
  | spanStart span => exact hP.bind (hP.spanSlot span name) fun _ => hP.pure _
  | spanEnd span => exact hP.bind (hP.spanSlot span name) fun _ => hP.pure _
  | _ => exact hP.pure _

/-- It holds of making the edges for codes. -/
theorem codeEdges (hP : Inherited P) (hgo : ∀ n, P StateId (go n))
    (s : StateId) (name : String) (edges : List Edge) : P StateId (do
      Assembly.setEdges s (← edges.mapM (Blueprint.codeEdge go name))
      return s) := by
  refine hP.bind (hP.mapM fun edge => ?_) fun _ => hP.bind (hP.setEdges _ _)
    fun _ => hP.pure _
  unfold Blueprint.codeEdge
  split
  · exact hP.bind (hgo _) fun _ => hP.pure _
  · exact hP.throw _ nofun

/-- It holds of building any other node. -/
theorem plainNode (hP : Inherited P) (hgo : ∀ n, P StateId (go n))
    (n : NodeId) :
    P StateId (bp.plainNode go n) := by
  unfold Blueprint.plainNode
  dsimp only
  refine hP.bind (hP.stateKind _ _) fun kind => ?_
  refine hP.bind (hP.addState _ _ _) fun state =>
    hP.bind (hP.enter _ _) fun _ => ?_
  split
  · refine hP.bind (hgo _) fun _ => hP.bind (hP.setOtherwise _ _) fun _ => ?_
    split
    · exact hP.codeEdges hgo _ _ _
    · exact hP.pure _
  · split
    · exact hP.codeEdges hgo _ _ _
    · exact hP.pure _
  · exact hP.throw _ nofun

theorem visit (hP : Inherited P) (depth : Nat) (n : NodeId) :
    P StateId (bp.visit depth n) := by
  induction depth generalizing n with
  | zero =>
      unfold Blueprint.visit
      exact hP.ask n _ (fun _ _ h => by rw [h]) fun _ => hP.pure _
  | succ depth ih =>
      unfold Blueprint.visit
      refine hP.ask n _ (fun _ _ h => by rw [h]) fun a => ?_
      split
      · exact hP.pure _
      · dsimp only
        split
        · exact hP.matchNode ih _
        · exact hP.plainNode ih n

/-- What the actions have, what a graph is assembled by has. -/
theorem assemble (hP : Inherited P) (root : NodeId) :
    P (List SpanSlot × StateId) (bp.assemble root) := by
  unfold Blueprint.assemble
  refine hP.bind (hP.mapM fun spans => ?_) fun slots =>
    hP.bind (hP.visit _ _) fun _ => hP.pure _
  unfold Blueprint.slotCallbacks
  exact hP.foldlM fun callbacks span => hP.bind (hP.addCode _) fun _ =>
    hP.pure _

end Inherited

end Bytewise.Assembly

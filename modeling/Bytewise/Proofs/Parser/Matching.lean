/-
The assembly does not depend on how nodes are numbered, and on options
only in its tables.

What is assembled on two sides matches (`Blueprint.Matches`) if nodes are
matched one to one, and spans keep their positions in the same places.
Then both assemblies go in lockstep: matched nodes are visited at the same
time, and become the same states.
-/
import Bytewise.Proofs.Graph.Matching
import Bytewise.Proofs.Parser.TwinTries

namespace Bytewise

namespace Blueprint

/-- Spans that keep their positions in one place and call one code. -/
structure SameSpan (bp bp' : Blueprint) (span span' : SpanId) : Prop where
  slot : bp.spans.slot? span = bp'.spans.slot? span'
  callback : bp.graph.code (bp.graph.spanCallback span)
    = bp'.graph.code (bp'.graph.spanCallback span')

/-- What is assembled is the same, but for the numbering and, where swaps are
admitted, for the options. -/
structure Matches (swaps : Prop) (m : NodeId → NodeId → Prop)
    (bp bp' : Blueprint) : Prop where
  unique : Relator.BiUnique m
  sound : bp.graph.Sound
  inside : ∀ n n', m n n' → n < bp.graph.size ∧ n' < bp'.graph.size
  nodes : ∀ n n', m n n' →
    Node.Matches m (fun c c' => bp.graph.code c = bp'.graph.code c')
    (SameSpan bp bp') (bp.graph.node n) (bp'.graph.node n')
  options : swaps ∨ bp.options = bp'.options
  sharing : List.Forall₂ (List.Forall₂ fun span span' =>
    bp.graph.code (bp.graph.spanCallback span)
      = bp'.graph.code (bp'.graph.spanCallback span'))
      bp.spans.sharing bp'.spans.sharing

end Blueprint

namespace Assembly

variable {swaps : Prop} {m : NodeId → NodeId → Prop} {bp bp' : Blueprint}
  {visit visit' : NodeId → Assemble StateId} {depth depth' : Nat}
  {a a' : Assembly} {n n' : NodeId}

-- ========================================================= match nodes

/-- Edges that match are entries that do, or are refused alike. -/
theorem trieEntry_agrees (name : String) {edge edge' : Edge}
    (h : edge.Matches m edge') :
    Agree (TrieEntry.Matches m) (Blueprint.trieEntry name edge)
      (Blueprint.trieEntry name edge') := by
  unfold Blueprint.trieEntry
  rw [← h.key]
  split
  · exact .ok ⟨rfl, h.target, h.noAdvance, h.value⟩
  · exact .error _

/-- A match node without keyed edges. -/
private theorem bareNode_agrees (hm : Relator.BiUnique m)
    (hvisit : VisitsAgree swaps m depth depth' visit visit') (hn : m n n')
    (name : String) (transform : Option Transform) {edge edge' : Edge}
    (hedge : edge.Matches m edge') (h : Twins swaps m a a')
    (hnew : a.stateOf? n = none)
    (hdepth : a.unentered ≤ depth ∧ a'.unentered ≤ depth') :
    Agrees swaps m (do
      let state ← addState name .empty transform
      enter n state
      setOtherwise state (.otherwise (← visit edge.target) edge.noAdvance)
      return state) a (do
      let state ← addState name .empty transform
      enter n' state
      setOtherwise state (.otherwise (← visit' edge'.target) edge'.noAdvance)
      return state) a' fun s b s' _ => s = s' ∧ b.stateOf? n = some s := by
  refine (addState_agrees h name transform (Or.inl rfl)).bind
    fun s b s' b' hb hon hon' hpost => ?_
  obtain ⟨rfl, _, _, hentered⟩ := hpost
  have hnone : b.stateOf? n = none := by
    unfold stateOf? at hnew ⊢
    rw [hentered]
    exact hnew
  refine (enter_agrees hm hb hn hnone s).bind fun _ c _ c' hc _ _ hpost => ?_
  obtain ⟨hs, hlt, hlt'⟩ := hpost
  have hle := hon.unentered
  have hle' := hon'.unentered
  refine (hvisit.agree _ _ c c' hedge.target hc ⟨by omega, by omega⟩).bind
    fun t d t' d' hd hon₂ _ hpost => ?_
  obtain ⟨rfl, _⟩ := hpost
  rw [hedge.noAdvance]
  refine (setOtherwise_agrees hd _ _).bind fun _ e _ e' he hon₃ _ _ => ?_
  exact .pure he ⟨rfl, hon₃.entered _ _ (hon₂.entered _ _ hs)⟩

/-- What is left to do for a match node that has a trie. -/
private theorem trieNode_agrees (hm : Relator.BiUnique m)
    (hoptions : swaps ∨ bp.options = bp'.options)
    (hvisit : VisitsAgree swaps m depth depth' visit visit')
    {owner owner' : Blueprint.Owner} (howner : SameOwner m owner owner')
    {t t' : Trie} (ht : t.Matches m t') (hform : t.Formed) (hdeep : t.Deep)
    {edge edge' : Edge} (hedge : edge.Matches m edge') (h : Twins swaps m a a')
    (hnew : a.stateOf? owner.id = none)
    (hdepth : a.unentered ≤ depth ∧ a'.unentered ≤ depth') :
    Agrees swaps m (do
      let (state, own) ← bp.trie visit owner t
      let edge := Machine.Edge.otherwise (← visit edge.target) edge.noAdvance
      own.forM (fillOtherwise edge)
      return state) a (do
      let (state, own) ← bp'.trie visit' owner' t'
      let edge := Machine.Edge.otherwise (← visit' edge'.target)
        edge'.noAdvance
      own.forM (fillOtherwise edge)
      return state) a' fun s b s' _ => s = s'
          ∧ b.stateOf? owner.id = some s := by
  refine (trie_agrees hm hoptions hvisit howner ht hform h
    (Or.inr ⟨hnew, hdepth⟩)
    fun _ => hdeep).bind fun r b r' b' hb _ _ hpost => ?_
  obtain ⟨rfl, hentered, hleft⟩ := hpost
  refine (hvisit.agree _ _ b b' hedge.target hb hleft).bind
    fun t c t' c' hc hon _ hpost => ?_
  obtain ⟨rfl, _⟩ := hpost
  rw [hedge.noAdvance]
  refine (Agrees.forM (fun s d d' hd => fillOtherwise_agrees hd s _) hc).bind
    fun _ d _ d' hd hon₂ _ _ => ?_
  exact .pure hd ⟨rfl, hon₂.entered _ _ (hon.entered _ _ (hentered hnew))⟩

/-- Matched nodes that match input are built alike. -/
private theorem matchNode_agrees (hbp : Blueprint.Matches swaps m bp bp')
    (hvisit : VisitsAgree swaps m depth depth' visit visit') (hn : m n n')
    (transform : Option Transform) (h : Twins swaps m a a')
    (hnew : a.stateOf? n = none)
    (hdepth : a.unentered ≤ depth ∧ a'.unentered ≤ depth') :
    Agrees swaps m (bp.matchNode visit ⟨n, (bp.graph.node n).name, transform⟩)
      a (bp'.matchNode visit' ⟨n', (bp'.graph.node n').name, transform⟩) a'
        fun s b s' _ => s = s' ∧ b.stateOf? n = some s := by
  have hnode := hbp.nodes n n' hn
  have hother := hnode.otherwise
  unfold Blueprint.matchNode
  dsimp only
  rw [← hnode.name]
  generalize (bp.graph.node n).otherwise = otherwise at hother
  generalize (bp'.graph.node n').otherwise = otherwise' at hother
  cases hother with
  | none => exact .throw _
  | @some edge edge' hedge =>
      have hentries : Agree (List.Forall₂ (TrieEntry.Matches m))
          ((bp.graph.node n).edges.mapM
            (Blueprint.trieEntry (bp.graph.node n).name))
          ((bp'.graph.node n').edges.mapM
              (Blueprint.trieEntry (bp.graph.node n).name)) :=
        .mapM hnode.edges fun e e' he => trieEntry_agrees _ he
      refine Agrees.mapM_lift_bind hentries.answers
        fun entries entries' hpost => ?_
      obtain ⟨hmatch, hok, _⟩ := hpost
      obtain ⟨rfl, _⟩ := mapM_trieEntry hok
      refine Agrees.lift_bind (Trie.build_agrees hmatch).answers
        fun built built' hpost => ?_
      obtain ⟨hbuilt, hbuild, _⟩ := hpost
      cases hbuilt with
      | none =>
          exact bareNode_agrees hbp.unique hvisit hn _ transform hedge
            h hnew hdepth
      | @some t t' ht =>
          have hdistinct :=
            (hbp.sound.nodes n (hbp.inside n n' hn).1).entries_distinct
          have hform := Trie.formed_of_build hdistinct hbuild
          have howner : SameOwner m ⟨n, (bp.graph.node n).name, transform⟩
            ⟨n', (bp.graph.node n).name, transform⟩ := ⟨hn, rfl, rfl⟩
          cases ht with
          | leaf leads => exact .throw _
          | sequence below =>
              exact trieNode_agrees hbp.unique hbp.options hvisit howner
                (.sequence below) hform
                trivial hedge h hnew hdepth
          | single below ended =>
              exact trieNode_agrees hbp.unique hbp.options hvisit howner
                (.single below ended) hform
                trivial hedge h hnew hdepth

-- ========================================================= other nodes

/-- Matched spans have the same slot and callback. -/
private theorem spanSlot_agrees {span span' : SpanId}
    (hspan : Blueprint.SameSpan bp bp' span span') (h : Twins swaps m a a')
    (name : String) :
    Agrees swaps m (bp.spanSlot span name) a (bp'.spanSlot span' name) a'
        fun r b r' _ =>
      r = r' ∧ b.entered = a.entered := by
  have hname : bp.graph.spanName span = bp'.graph.spanName span' :=
    congrArg Code.name hspan.callback
  unfold Blueprint.spanSlot
  rw [← hspan.slot, ← hspan.callback, hname]
  cases bp.spans.slot? span with
  | none => exact .throw _
  | some slot =>
      refine (addCode_agrees h _).bind
        fun callback b callback' b' hb _ _ hpost => ?_
      obtain ⟨rfl, hentered⟩ := hpost
      exact .pure hb ⟨rfl, hentered⟩

/-- Matched nodes become states of one kind. -/
private theorem stateKind_agrees {kind kind' : NodeKind}
    (hkind : kind.Matches (fun c c' => bp.graph.code c = bp'.graph.code c')
      (Blueprint.SameSpan bp bp') kind')
    (h : Twins swaps m a a') (name : String) :
    Agrees swaps m (bp.stateKind name kind) a (bp'.stateKind name kind') a'
        fun r b r' _ =>
      r = r' ∧ b.entered = a.entered := by
  cases hkind with
  | dispatch t => exact .pure h ⟨rfl, rfl⟩
  | error code reason => exact .pure h ⟨rfl, rfl⟩
  | pause code reason => exact .pure h ⟨rfl, rfl⟩
  | consume field => exact .pure h ⟨rfl, rfl⟩
  | invoke same =>
      unfold Blueprint.stateKind
      dsimp only
      rw [← same]
      split
      · exact .throw _
      · refine (addCode_agrees h _).bind
          fun callee b callee' b' hb _ _ hpost => ?_
        obtain ⟨rfl, hentered⟩ := hpost
        exact .pure hb ⟨rfl, hentered⟩
  | spanStart same =>
      refine (spanSlot_agrees same h name).bind fun r b r' b' hb _ _ hpost =>
        ?_
      obtain ⟨rfl, hentered⟩ := hpost
      exact .pure hb ⟨rfl, hentered⟩
  | spanEnd same =>
      refine (spanSlot_agrees same h name).bind fun r b r' b' hb _ _ hpost =>
        ?_
      obtain ⟨rfl, hentered⟩ := hpost
      exact .pure hb ⟨rfl, hentered⟩

private theorem codeEdge_agrees
    (hvisit : VisitsAgree swaps m depth depth' visit visit') (name : String)
    {edge edge' : Edge} (hedge : edge.Matches m edge') (h : Twins swaps m a a')
    (hdepth : DepthLeft depth depth' a a') :
    Agrees swaps m (Blueprint.codeEdge visit name edge) a
      (Blueprint.codeEdge visit' name edge') a'
      fun r _ r' _ => r = r' := by
  unfold Blueprint.codeEdge
  rw [← hedge.key]
  split
  · refine (hvisit.agree _ _ a a' hedge.target h hdepth).bind
      fun s b s' b' hb _ _ hpost => ?_
    rw [hpost.1]
    exact .pure hb rfl
  · exact .throw _

section

variable {kind kind' : NodeKind} {edges edges' : List Edge}

/-- The keyed edges of a state for a node that is no match node. -/
private theorem plainEdges_agrees {codes : CodeRef → CodeRef → Prop}
    {spans : SpanId → SpanId → Prop} (hkind : kind.Matches codes spans kind')
    (hedges : List.Forall₂ (Edge.Matches m) edges edges')
    (hvisit : VisitsAgree swaps m depth depth' visit visit')
    (h : Twins swaps m a a') (hdepth : DepthLeft depth depth' a a')
    {s : StateId} {made : Machine.StateKind} (hmade : a.Made s made)
    (hmade' : a'.Made s made) (name : String) :
    Agrees swaps m (match kind with
      | .invoke _ => do
          setEdges s (← edges.mapM (Blueprint.codeEdge visit name))
          return s
      | _ => return s) a (match kind' with
      | .invoke _ => do
          setEdges s (← edges'.mapM (Blueprint.codeEdge visit' name))
          return s
      | _ => return s) a' fun r _ r' _ => r = s ∧ r' = s := by
  cases hkind with
  | invoke _ =>
      refine (Agrees.mapM hedges (fun e e' b b' he hb hon hon' =>
        codeEdge_agrees hvisit name he hb (hdepth.onward hon hon')) h).bind
          fun edges b edges' b' hb hon hon' hsame => ?_
      subst hsame
      refine (setEdges_agrees hb (hmade.keep hon.toKept)
        (hmade'.keep hon'.toKept) _).bind
        fun _ c _ c' hc _ _ _ => ?_
      exact .pure hc ⟨rfl, rfl⟩
  | dispatch _ => exact .pure h ⟨rfl, rfl⟩
  | error _ _ => exact .pure h ⟨rfl, rfl⟩
  | pause _ _ => exact .pure h ⟨rfl, rfl⟩
  | consume _ => exact .pure h ⟨rfl, rfl⟩
  | spanStart _ => exact .pure h ⟨rfl, rfl⟩
  | spanEnd _ => exact .pure h ⟨rfl, rfl⟩

end

/-- All other matched nodes are built alike. -/
private theorem plainNode_agrees (hbp : Blueprint.Matches swaps m bp bp')
    (hvisit : VisitsAgree swaps m depth depth' visit visit') (hn : m n n')
    (h : Twins swaps m a a') (hnew : a.stateOf? n = none)
    (hdepth : a.unentered ≤ depth ∧ a'.unentered ≤ depth') :
    Agrees swaps m (bp.plainNode visit n) a (bp'.plainNode visit' n') a'
      fun s b s' _ => s = s' ∧ b.stateOf? n = some s := by
  obtain ⟨hname, hkind, hedges, hother⟩ := hbp.nodes n n' hn
  unfold Blueprint.plainNode
  dsimp only
  rw [← hname]
  refine (stateKind_agrees hkind h _).bind
    fun kind b kind' b' hb hon hon' hpost => ?_
  obtain ⟨rfl, hentered⟩ := hpost
  refine (addState_agrees hb _ none (Or.inl rfl)).bind
    fun s c s' c' hc hon₂ hon₂' hpost => ?_
  obtain ⟨rfl, hmade, hmade', hentered'⟩ := hpost
  have hnone : c.stateOf? n = none := by
    unfold stateOf? at hnew ⊢
    rw [hentered', hentered]
    exact hnew
  refine (enter_agrees hbp.unique hc hn hnone s).bind
    fun _ d _ d' hd hon₃ hon₃' hpost => ?_
  obtain ⟨hs, hlt, hlt'⟩ := hpost
  have hmade := hmade.keep hon₃.toKept
  have hmade' := hmade'.keep hon₃'.toKept
  have hleft : DepthLeft depth depth' d d' := by
    have hle := (hon.trans hon₂).unentered
    have hle' := (hon'.trans hon₂').unentered
    exact ⟨by omega, by omega⟩
  generalize (bp.graph.node n).otherwise = otherwise at hother
  generalize (bp'.graph.node n').otherwise = otherwise' at hother
  cases hother with
  | @some edge edge' hedge =>
      refine (hvisit.agree _ _ d d' hedge.target hd hleft).bind
        fun t e t' e' he hon₄ hon₄' hpost => ?_
      obtain ⟨rfl, _⟩ := hpost
      rw [hedge.noAdvance]
      refine (setOtherwise_agrees he _ _).bind fun _ f _ f' hf hon₅ hon₅' _ =>
        ?_
      have hon := hon₄.trans hon₅
      have hon' := hon₄'.trans hon₅'
      refine (plainEdges_agrees hkind hedges hvisit hf (hleft.onward hon hon')
        (hmade.keep hon.toKept) (hmade'.keep hon'.toKept) _).mono
        fun r g r' g' _ hon₆ _ hpost => ?_
      obtain ⟨rfl, rfl⟩ := hpost
      exact ⟨rfl, hon₆.entered _ _ (hon.entered _ _ hs)⟩
  | none =>
      have hrest := plainEdges_agrees hkind hedges hvisit hd hleft hmade hmade'
        (bp.graph.node n).name
      generalize (bp.graph.node n).kind = kind at hkind hrest
      generalize (bp'.graph.node n').kind = kind' at hkind hrest
      cases hkind with
      | error code reason =>
          refine hrest.mono fun r e r' e' _ hon₄ _ hpost => ?_
          obtain ⟨rfl, rfl⟩ := hpost
          exact ⟨rfl, hon₄.entered _ _ hs⟩
      | dispatch _ => exact .error _
      | pause _ _ => exact .error _
      | consume _ => exact .error _
      | invoke _ => exact .error _
      | spanStart _ => exact .error _
      | spanEnd _ => exact .error _

-- ============================================================== visits

/-- Looking at the assembly leaves it as it is. -/
private theorem run_get_bind {α : Type} (f : Assembly → Assemble α) :
    (get >>= f).run a = (f a).run a :=
  rfl

/-- A node that has its state is not built again. -/
private theorem visit_again (depth : Nat) {s : StateId}
    (h : a.stateOf? n = some s) :
    (bp.visit depth n).run a = .ok (s, a) := by
  cases depth with
  | zero =>
      show Except.ok ((a.stateOf? n).getD 0, a) = .ok (s, a)
      rw [h]
      rfl
  | succ depth =>
      unfold Blueprint.visit
      rw [run_get_bind, h]
      rfl

/-- Visits go in lockstep. -/
theorem visit_agrees (hbp : Blueprint.Matches swaps m bp bp')
    (depth depth' : Nat) :
    VisitsAgree swaps m depth depth' (bp.visit depth) (bp'.visit depth') := by
  refine ⟨?_, fun n a s => visit_again depth, fun n a s => visit_again depth'⟩
  induction depth generalizing depth' with
  | zero =>
      exact fun n n' a a' _ _ hdepth => absurd hdepth.left (Nat.not_lt_zero _)
  | succ depth ih =>
      intro n n' a a' hn h hdepth
      obtain ⟨hlt, hlt'⟩ := hdepth
      cases depth' with
      | zero => exact absurd hlt' (Nat.not_lt_zero _)
      | succ depth' =>
          have hvisit : VisitsAgree swaps m depth depth' (bp.visit depth)
              (bp'.visit depth') :=
            ⟨ih depth', fun n a s => visit_again depth, fun n a s =>
              visit_again depth'⟩
          have hle := And.intro (Nat.le_of_lt_succ hlt)
            (Nat.le_of_lt_succ hlt')
          unfold Blueprint.visit
          refine Agrees.get_bind ?_
          rw [← h.entered n n' hn]
          cases hentered : a.stateOf? n with
          | some s => exact .pure h ⟨rfl, hentered⟩
          | none =>
              have hplain := plainNode_agrees hbp hvisit hn h hentered hle
              have hkind := (hbp.nodes n n' hn).kind
              dsimp only
              generalize hleft : (bp.graph.node n).kind = kind at hkind
              generalize hright : (bp'.graph.node n').kind = kind' at hkind
              cases hkind with
              | dispatch transform =>
                  exact matchNode_agrees hbp hvisit hn transform h hentered hle
              | error _ _ => exact hplain
              | pause _ _ => exact hplain
              | consume _ => exact hplain
              | invoke _ => exact hplain
              | spanStart _ => exact hplain
              | spanEnd _ => exact hplain

/-- What is no node of the graph has no otherwise edge. -/
private theorem visit_outside (depth : Nat) (hn : bp.graph.size ≤ n)
    (hroom : a.entered.size ≤ n) :
    (bp.visit (depth + 1) n).run a = .error (.missingOtherwise "") := by
  have hentered : a.stateOf? n = none := by
    unfold stateOf?
    rw [Array.getD_eq_getD_getElem?, Array.getElem?_eq_none hroom]
    rfl
  have hnode : bp.graph.node n = default := Graph.node_of_ge hn
  unfold Blueprint.visit
  rw [run_get_bind, hentered, hnode]
  show StateT.run (bp.matchNode (bp.visit depth) ⟨n, _, none⟩) a = _
  unfold Blueprint.matchNode
  dsimp only
  rw [hnode]
  rfl

private theorem slotCallbacks_agrees {spans spans' : List SpanId}
    (hspans : List.Forall₂ (fun span span' =>
      bp.graph.code (bp.graph.spanCallback span)
        = bp'.graph.code (bp'.graph.spanCallback span'))
        spans spans') (h : Twins swaps m a a') :
    Agrees swaps m (bp.slotCallbacks spans) a (bp'.slotCallbacks spans') a'
      fun r _ r' _ => r = r' := by
  unfold Blueprint.slotCallbacks
  refine .foldlM hspans (fun callbacks span span' b b' hspan hb => ?_) [] h
  rw [← hspan]
  refine (addCode_agrees hb _).bind fun callback c callback' c' hc _ _ hpost =>
    ?_
  rw [hpost.1]
  exact .pure hc rfl

/-- At first no more than all nodes are left to enter. -/
private theorem unentered_start (symbolPrefix : String) (size : Nat) :
    (start symbolPrefix size).unentered ≤ size := by
  have hsize : (start symbolPrefix size).entered.toList.length = size := by
    rw [Array.length_toList]
    exact Array.size_replicate
  exact Nat.le_trans List.countP_le_length (Nat.le_of_eq hsize)

private theorem stateOf_start (symbolPrefix : String) (size : Nat)
    (n : NodeId) :
    (start symbolPrefix size).stateOf? n = none := by
  unfold stateOf? start
  dsimp only
  rw [Array.getD_eq_getD_getElem?, Array.getElem?_replicate]
  split <;> rfl

theorem twins_start (hinside : ∀ n n', m n n' → n < bp.graph.size
    ∧ n' < bp'.graph.size)
    (symbolPrefix : String) :
    Twins swaps m (start symbolPrefix bp.graph.size)
        (start symbolPrefix bp'.graph.size) where
  machine := ⟨rfl, rfl, fun _ => Or.inl rfl⟩
  stateNames := rfl
  codeNames := rfl
  entered n n' _ := by rw [stateOf_start, stateOf_start]
  inside n n' hn := by
    show n < (Array.replicate _ _).size ∧ n' < (Array.replicate _ _).size
    rw [Array.size_replicate, Array.size_replicate]
    exact hinside n n' hn

/-- What matches is assembled alike, from matched roots or from what are no
nodes. -/
theorem assemble_agrees (hbp : Blueprint.Matches swaps m bp bp')
    {root root' : NodeId}
    (hroot : m root root' ∨ bp.graph.size ≤ root ∧ bp'.graph.size ≤ root')
    (symbolPrefix : String) :
    Agree (fun r r' => r.1 = r'.1 ∧ r.2.machine.Twins swaps r'.2.machine)
      ((bp.assemble root).run (start symbolPrefix bp.graph.size))
      ((bp'.assemble root').run (start symbolPrefix bp'.graph.size)) := by
  have hstart : Twins swaps m _ _ := twins_start hbp.inside symbolPrefix
  have hall : Agrees swaps m (bp.assemble root)
      (start symbolPrefix bp.graph.size)
      (bp'.assemble root') (start symbolPrefix bp'.graph.size) fun r _ r' _ =>
          r = r' := by
    unfold Blueprint.assemble
    have hslots : Agrees swaps m (bp.spans.sharing.mapM bp.slotCallbacks) _
        (bp'.spans.sharing.mapM bp'.slotCallbacks) _ fun slots _ slots' _ =>
            slots = slots' :=
      .mapM hbp.sharing (fun spans spans' b b' hspans hb _ _ =>
        slotCallbacks_agrees hspans hb) hstart
    refine hslots.bind fun slots b slots' b' hb hon hon' hsame => ?_
    have hdepth : DepthLeft (bp.graph.size + 1) (bp'.graph.size + 1) b b' :=
      ⟨Nat.lt_succ_of_le (hon.unentered.trans (unentered_start _ _)),
        Nat.lt_succ_of_le (hon'.unentered.trans (unentered_start _ _))⟩
    rcases hroot with hroot | ⟨hout, hout'⟩
    · refine ((visit_agrees hbp _ _).agree root root' b b' hroot
        hb hdepth).bind
        fun s c s' c' hc _ _ hpost => ?_
      rw [hsame, hpost.1]
      exact .pure hc rfl
    · have hroom : b.entered.size ≤ root :=
        hon.room.trans_le (Array.size_replicate.trans_le hout)
      have hroom' : b'.entered.size ≤ root' :=
        hon'.room.trans_le (Array.size_replicate.trans_le hout')
      unfold Agrees
      rw [StateT.run_bind, StateT.run_bind, visit_outside _ hout hroom,
        visit_outside _ hout' hroom']
      exact .error _
  exact Agree.mono hall fun r r' hr => ⟨hr.2.2.2, hr.1.machine⟩

end Assembly

-- ============================================================= parsers

namespace Parser

/-- Parsers of machines that are twins, which are alike in all else. -/
structure Twins (swaps : Prop) (p p' : Parser) : Prop where
  symbolPrefix : p.symbolPrefix = p'.symbolPrefix
  machine : p.machine.Twins swaps p'.machine
  root : p.root = p'.root
  properties : p.properties = p'.properties
  slots : p.slots = p'.slots
  resumable : p.resumable = p'.resumable

variable {swaps : Prop} {g g' : Graph} {root root' : NodeId}
  {symbolPrefix : String} {options options' : Options}

/-- What is assembled alike makes parsers that are twins. -/
theorem ofGraph_twins (hproperties : g.properties = g'.properties)
    (h : Bytewise.Agree (fun r r' => r.1 = r'.1
      ∧ r.2.machine.Twins swaps r'.2.machine)
      (assembled g root symbolPrefix options)
      (assembled g' root' symbolPrefix options')) :
    Bytewise.Agree (Twins swaps) (ofGraph g root symbolPrefix options)
      (ofGraph g' root' symbolPrefix options') := by
  refine Bytewise.Agree.bind h fun r r' hr => ?_
  obtain ⟨⟨slots, start⟩, done⟩ := r
  obtain ⟨⟨slots', start'⟩, done'⟩ := r'
  obtain ⟨hsame, htwins⟩ := hr
  obtain ⟨rfl, rfl⟩ := Prod.mk.inj hsame
  dsimp only at htwins ⊢
  rw [← htwins.enumerate start]
  obtain ⟨hmachine, hroot⟩ :=
    htwins.skipForwarding start (done.machine.enumerate start)
  refine .ok ⟨rfl, hmachine, hroot, congrArg Array.toList hproperties, rfl, ?_⟩
  dsimp only
  rw [← hroot, ← hmachine.enumerate, funext hmachine.resumeTargets]

end Parser

end Bytewise

/-
What a graph is assembled into.

The state of a node is entered before its edges are followed, so a cycle
closes on a state that is still pending; it is settled when its edges are
known. Every visit settles all states it adds, and a visit nested in
others enters a node more than they have: nodes that are not entered pay
for the depth of the recursion (`visit_answers`).
-/
import Bytewise.Parser.OfGraph
import Bytewise.Proofs.Parser.Tries

namespace Bytewise

namespace Assembly

variable {bp : Blueprint} {root : NodeId} {depth : Nat}
  {pending : StateId → Prop} {a a' : Assembly} {roles roles' : List Role}
  {n : NodeId} {s : StateId} {visit : NodeId → Assemble StateId}

-- ========================================================= whole nodes

/-- A node in the making: its state `s` stands for it. -/
structure Begun (bp : Blueprint) (root : NodeId) (pending : StateId → Prop)
    (a : Assembly) (roles : List Role) (n : NodeId) (s : StateId)
    (a' : Assembly) (roles' : List Role) : Prop where
  tracks : Tracks bp root (fun x => pending x ∨ x = s) a' roles'
  grows : Grows a roles a' roles'
  role : roles'[s]? = some (.whole n)
  first : a.machine.size ≤ s
  entered : a'.stateOf? n = some s

theorem Begun.lt (h : Begun bp root pending a roles n s a' roles') :
    s < a'.machine.size :=
  h.tracks.lt h.role

theorem Begun.changed (h : Begun bp root pending a roles n s a' roles')
    (change : Machine.State → Machine.State) :
    Begun bp root pending a roles n s (a'.changed s change) roles' where
  tracks := h.tracks.changed (Or.inr rfl) change
  grows := h.grows.changed h.first change
  role := h.role
  first := h.first
  entered := h.entered

/-- What is assembled meanwhile leaves the state alone. -/
theorem Begun.grow (h : Begun bp root pending a roles n s a' roles')
    {b : Assembly} {roles'' : List Role}
    (htracks : Tracks bp root (fun x => pending x ∨ x = s) b roles'')
    (hgrows : Grows a' roles' b roles'') :
    Begun bp root pending a roles n s b roles''
        ∧ b.machine.state s = a'.machine.state s where
  left := {
    tracks := htracks
    grows := h.grows.trans hgrows
    role := hgrows.layout.roles s _ h.role
    first := h.first
    entered := hgrows.entered h.entered }
  right := hgrows.states s h.lt

/-- Once its state realizes it, a node is done. -/
theorem Begun.close (h : Begun bp root pending a roles n s a' roles')
    (hdone : (a'.layout roles').Realizes bp (.whole n) (a'.machine.state s)) :
    Tracks bp root pending a' roles' ∧ Grows a roles a' roles'
        ∧ a'.stateOf? n = some s := by
  refine ⟨h.tracks.settle fun x role hx hp hnot => ?_, h.grows, h.entered⟩
  have hxs : x = s := hp.resolve_left hnot
  subst hxs
  obtain rfl := Option.some.inj (h.role.symm.trans hx)
  exact hdone

/-- A new node begins with a new state, which is entered for it. -/
theorem Tracks.begin (h : Tracks bp root pending a roles)
    (hreach : bp.graph.Reaches root n) (hn : n < bp.graph.size)
    (henters : bp.Enters n (.whole n)) (hnew : a.stateOf? n = none)
    (hdepth : a.unentered ≤ depth + 1) (stateNames : NameSupply)
    (state : Machine.State) :
    Begun bp root pending a roles n a.machine.size
        ((a.pushed stateNames state).entering n a.machine.size)
        (roles ++ [.whole n])
      ∧ ((a.pushed stateNames state).entering n a.machine.size).machine.state
        a.machine.size = state
      ∧ ((a.pushed stateNames state).entering n a.machine.size).unentered
          ≤ depth := by
  have hallows : bp.Allows root (.whole n) :=
    ⟨hreach, fun _ _ heq => nomatch heq⟩
  have hpushed := h.pushed hallows stateNames state
  have hrole : (roles ++ [Role.whole n])[a.machine.size]?
      = some (.whole n) := by
    rw [← h.size]
    exact List.getElem?_concat_length
  have hlt : n < (a.pushed stateNames state).entered.size := by
    rw [hpushed.nodes]
    exact hn
  obtain ⟨htracks, hgrows⟩ := hpushed.entering hn hrole henters hnew
  have hless := unentered_entering hlt hnew a.machine.size
  refine ⟨⟨htracks, (grows_pushed a roles _ stateNames state).trans hgrows,
    hrole, Nat.le_refl _, ?_⟩,
    Machine.state_push_size a.machine state,
      Nat.le_of_lt_succ (Nat.lt_of_lt_of_le hless hdepth)⟩
  rw [stateOf_entering hlt, if_pos rfl]

-- ========================================================= match nodes

theorem mapM_trieEntry {name : String} {edges : List Edge}
    {entries : List TrieEntry}
    (h : edges.mapM (Blueprint.trieEntry name) = .ok entries) :
    entries = edges.filterMap Edge.entry? ∧ entries.length = edges.length := by
  induction edges generalizing entries with
  | nil =>
      obtain rfl := Except.ok.inj h
      exact ⟨rfl, rfl⟩
  | cons edge edges ih =>
      rw [List.mapM_cons] at h
      obtain ⟨entry, hentry, hrest⟩ := ok_of_bind h
      obtain ⟨more, hmore, heq⟩ := ok_of_bind hrest
      obtain rfl := Except.ok.inj heq
      obtain ⟨rfl, hlength⟩ := ih hmore
      have hsome : edge.entry? = some entry := by
        unfold Blueprint.trieEntry at hentry
        unfold Edge.entry?
        rcases hkey : edge.key with _ | (bs | code)
        · rw [hkey] at hentry
          cases hentry
        · rw [hkey] at hentry
          obtain rfl := Except.ok.inj hentry
          rfl
        · rw [hkey] at hentry
          cases hentry
      rw [List.filterMap_cons_some hsome]
      exact ⟨rfl, by rw [List.length_cons, List.length_cons, hlength]⟩

/-- Only a node without keyed edges has no trie. -/
theorem nil_of_build_none {name : String} {entries : List TrieEntry}
    (h : Trie.build name entries = .ok none) : entries = [] := by
  cases entries with
  | nil => rfl
  | cons first more =>
      unfold Trie.build at h
      dsimp only at h
      cases hlevel : Trie.level name []
          ((first :: more).mergeSort TrieEntry.keyLE) with
      | error cause =>
          rw [hlevel] at h
          cases h
      | ok t =>
          rw [hlevel] at h
          cases h

/-- A match node without keyed edges becomes one state, which goes on as it
does. -/
private theorem bareNode_answers (hg : bp.graph.Sound)
    (hvisit : Visits bp root depth visit) (h : Tracks bp root pending a roles)
    (hreach : bp.graph.Reaches root n) (hn : n < bp.graph.size)
    {t : Option Transform} (hkind : (bp.graph.node n).kind = .dispatch t)
    (hedges : (bp.graph.node n).edges = []) {edge : Edge}
    (hother : (bp.graph.node n).otherwise = some edge)
    (hnew : a.stateOf? n = none) (hdepth : a.unentered ≤ depth + 1)
    {name : String} :
    Answers (do
      let state ← addState name .empty t
      enter n state
      setOtherwise state (.otherwise (← visit edge.target) edge.noAdvance)
      return state) a fun s b => ∃ roles', Tracks bp root pending b roles'
        ∧ Grows a roles b roles' ∧ b.stateOf? n = some s := by
  refine Answers.addState_bind fun stateName stateNames =>
    Answers.enter_bind ?_
  obtain ⟨hbegun, hstate, hless⟩ :=
    h.begin hreach hn (.whole fun _ _ => hedges) hnew hdepth
    stateNames { name := stateName, nodeName := name, kind := .empty,
                 transform := t }
  refine (hvisit.target hg hreach (Graph.mem_allEdges.mpr (Or.inr hother))
    hbegun.tracks hless).bind ?_
  intro target c hpost
  obtain ⟨roles₂, htracks, hgrows, htarget⟩ := hpost
  obtain ⟨hlast, hsame⟩ := hbegun.grow htracks hgrows
  refine Answers.setOtherwise_bind
    (Answers.pure ⟨roles₂, (hlast.changed _).close ?_⟩)
  rw [state_changed hlast.lt, if_pos rfl, hsame, hstate]
  refine .whole ⟨⟨t, hkind⟩, hedges⟩ ⟨fun _ he => (nomatch he), ?_⟩
    (fun e he => ?_)
    (fun hnone => ?_)
  · intro hsome
    obtain ⟨ref, hinvoke⟩ := hsome
    rw [hkind] at hinvoke
    cases hinvoke
  · obtain rfl := Option.some.inj (hother.symm.trans he)
    exact ⟨_, rfl, rfl, rfl, htarget⟩
  · rw [hother] at hnone
    cases hnone

/-- A match node with keyed edges becomes the states of its trie, and they are
closed by its otherwise edge. -/
private theorem trieNode_answers (hg : bp.graph.Sound)
    (hvisit : Visits bp root depth visit) (h : Tracks bp root pending a roles)
    (hreach : bp.graph.Reaches root n) (hn : n < bp.graph.size)
    {transform : Option Transform}
    (hkind : (bp.graph.node n).kind = .dispatch transform) {edge : Edge}
    (hother : (bp.graph.node n).otherwise = some edge)
    (hnew : a.stateOf? n = none) (hdepth : a.unentered ≤ depth + 1)
    {name : String} {t : Trie} (hbuilds : bp.Builds n t) (hdeep : t.Deep) :
    Answers (do
      let (state, own) ← bp.trie visit ⟨n, name, transform⟩ t
      let edge := Machine.Edge.otherwise (← visit edge.target) edge.noAdvance
      own.forM (fillOtherwise edge)
      return state) a fun s b => ∃ roles', Tracks bp root pending b roles'
        ∧ Grows a roles b roles' ∧ b.stateOf? n = some s := by
  refine (trie_answers hg hvisit ⟨hreach, hn, hkind⟩ h (hbuilds.within hg hn)
    (Or.inr ⟨hdepth, hnew, hbuilds, hdeep⟩)).bind ?_
  intro answer b hpost
  obtain ⟨s, own⟩ := answer
  obtain ⟨roles₁, hparts, _, hentered⟩ := hpost
  obtain ⟨hless, hfirst⟩ := hentered hdeep
  have hs : b.stateOf? n = some s := hfirst hnew
  refine (hvisit.target hg hreach (Graph.mem_allEdges.mpr (Or.inr hother))
    hparts.tracks hless).bind ?_
  intro target c hpost
  obtain ⟨roles₂, htracks, hgrows, htarget⟩ := hpost
  have hlike : (c.layout roles₂).IsOtherwise edge
      (.otherwise target edge.noAdvance) :=
    ⟨rfl, rfl, htarget⟩
  refine (fill_answers (hparts.halves.grow hparts.tracks hgrows) htracks
    (hparts.grows.trans hgrows) hparts.fresh hother hlike).bind ?_
  intro _ d hpost
  obtain ⟨htracks', hgrows', hextends⟩ := hpost
  exact Answers.pure
    ⟨roles₂, htracks', hgrows', hextends.lands n s (hgrows.entered hs)⟩

/-- A match node becomes the states of its trie, closed by its otherwise
edge. -/
private theorem matchNode_answers (hg : bp.graph.Sound)
    (hvisit : Visits bp root depth visit) (h : Tracks bp root pending a roles)
    (hreach : bp.graph.Reaches root n) (hn : n < bp.graph.size)
    {t : Option Transform} (hkind : (bp.graph.node n).kind = .dispatch t)
    (hnew : a.stateOf? n = none) (hdepth : a.unentered ≤ depth + 1) :
    Answers (bp.matchNode visit ⟨n, (bp.graph.node n).name, t⟩) a fun s b =>
      ∃ roles',
      Tracks bp root pending b roles' ∧ Grows a roles b roles'
          ∧ b.stateOf? n = some s := by
  unfold Blueprint.matchNode
  dsimp only
  cases hother : (bp.graph.node n).otherwise with
  | none => exact Answers.throw
  | some edge =>
      refine Answers.mapM_lift_bind fun entries hentries => ?_
      obtain ⟨rfl, hlength⟩ := mapM_trieEntry hentries
      refine Answers.lift_bind fun built hbuilt => ?_
      match built, hbuilt with
      | none, hbuilt =>
          have hedges : (bp.graph.node n).edges = [] := by
            rw [nil_of_build_none hbuilt] at hlength
            exact List.length_eq_zero_iff.mp hlength.symm
          exact bareNode_answers hg hvisit h hreach hn hkind hedges
            hother hnew hdepth
      | some (.leaf _), _ => exact Answers.throw
      | some (.sequence literal child), hbuilt => 
          exact trieNode_answers hg hvisit h hreach hn hkind hother hnew hdepth
            hbuilt trivial
      | some (.single bs fallback), hbuilt =>
          exact trieNode_answers hg hvisit h hreach hn hkind hother hnew hdepth
            hbuilt trivial

-- ========================================================= other nodes

/-- A span has the slot it was allocated, and its callback is compiled. -/
private theorem spanSlot_answers (h : Tracks bp root pending a roles)
    (span : SpanId) (name : String) :
    Answers (bp.spanSlot span name) a fun r b => bp.spans.slot? span = some r.1
      ∧ b.machine.Compiles (bp.graph.code (bp.graph.spanCallback span)) r.2
      ∧ Tracks bp root pending b roles ∧ Grows a roles b roles
          ∧ b.entered = a.entered := by
  unfold Blueprint.spanSlot
  cases hslot : bp.spans.slot? span with
  | none => exact Answers.throw
  | some slot =>
      refine (addCode_answers h _).bind ?_
      intro callback b hpost
      obtain ⟨hcode, htracks, hgrows, _, hentered⟩ := hpost
      exact Answers.pure ⟨rfl, hcode, htracks, hgrows, hentered⟩

/-- What a node that is no match node becomes. -/
private theorem stateKind_answers (h : Tracks bp root pending a roles)
    (node : Node) (hkind : ∀ t, node.kind ≠ .dispatch t) :
    Answers (bp.stateKind node.name node.kind) a fun kind b => Tracks bp root
      pending b roles
      ∧ Grows a roles b roles ∧ (b.layout roles).KindFits bp node kind
      ∧ b.entered = a.entered := by
  unfold Blueprint.stateKind
  cases hnode : node.kind with
  | dispatch t => exact absurd hnode (hkind t)
  | error code reason => exact Answers.pure ⟨h, Grows.refl, hnode, rfl⟩
  | pause code reason => exact Answers.pure ⟨h, Grows.refl, hnode, rfl⟩
  | consume field => exact Answers.pure ⟨h, Grows.refl, hnode, rfl⟩
  | invoke ref =>
      dsimp only
      split
      · exact Answers.throw
      · refine (addCode_answers h _).bind ?_
        intro callee b hpost
        obtain ⟨hcode, htracks, hgrows, _, hentered⟩ := hpost
        exact Answers.pure ⟨htracks, hgrows, ⟨ref, hnode, hcode⟩, hentered⟩
  | spanStart span =>
      refine (spanSlot_answers h span node.name).bind ?_
      intro answer b hpost
      obtain ⟨slot, callback⟩ := answer
      obtain ⟨hslot, hcode, htracks, hgrows, hentered⟩ := hpost
      exact Answers.pure
        ⟨htracks, hgrows, ⟨span, hnode, hslot, hcode⟩, hentered⟩
  | spanEnd span =>
      refine (spanSlot_answers h span node.name).bind ?_
      intro answer b hpost
      obtain ⟨slot, callback⟩ := answer
      obtain ⟨hslot, hcode, htracks, hgrows, hentered⟩ := hpost
      exact Answers.pure
        ⟨htracks, hgrows, ⟨span, hnode, hslot, hcode⟩, hentered⟩

/-- The visits of what return codes lead to give the edges of an invoke
state. -/
private theorem codeEdges_answers (hg : bp.graph.Sound)
    (hvisit : Visits bp root depth visit) (hreach : bp.graph.Reaches root n)
    (h : Tracks bp root pending a roles) (hdepth : a.unentered ≤ depth)
    {name : String} :
    Answers ((bp.graph.node n).edges.mapM (Blueprint.codeEdge visit name)) a
        fun edges b =>
      ∃ roles', Tracks bp root pending b roles' ∧ Grows a roles b roles'
        ∧ (b.layout roles').CodeEdges (bp.graph.node n) edges := by
  have heach : ∀ edge ∈ (bp.graph.node n).edges, ∀ a roles,
      Tracks bp root pending a roles →
      a.unentered ≤ depth →
          Answers (Blueprint.codeEdge visit name edge) a fun edge' b =>
        ∃ roles', Tracks bp root pending b roles' ∧ Grows a roles b roles'
          ∧ (b.layout roles').IsCodeEdge edge edge' := by
    intro edge hedge a roles h hdepth
    unfold Blueprint.codeEdge
    split
    · rename_i code hkey
      refine (hvisit.target hg hreach (Graph.mem_allEdges.mpr (Or.inl hedge)) h
        hdepth).bind ?_
      intro target b hpost
      obtain ⟨roles', htracks, hgrows, htarget⟩ := hpost
      exact Answers.pure ⟨roles', htracks, hgrows, ⟨code, hkey, rfl⟩, rfl,
        rfl, htarget⟩
    · exact Answers.throw
  refine (Answers.mapM (R := fun l : Layout => l.IsCodeEdge)
    (fun hext hedge => hext.isCodeEdge hedge) heach h hdepth).mono ?_
  intro edges b hpost
  obtain ⟨roles', htracks, hgrows, hforall⟩ := hpost
  exact ⟨roles', htracks, hgrows, fun _ he => exists_of_mem_right hforall he,
    fun _ _ he => exists_of_mem_left hforall he⟩

/-- A node whose state has all but its keyed edges is done once it has these,
if it calls. -/
private theorem Begun.edges_answers (hg : bp.graph.Sound)
    (hvisit : Visits bp root depth visit) (hreach : bp.graph.Reaches root n)
    (h : Begun bp root pending a roles n s a' roles')
    (hdepth : a'.unentered ≤ depth) {name : String}
    (hfits : (a'.layout roles').KindFits bp (bp.graph.node n)
      (a'.machine.state s).kind)
    (hedges : (a'.machine.state s).edges = [])
    (hother : ∀ edge, (bp.graph.node n).otherwise = some edge →
      ∃ edge', (a'.machine.state s).otherwise = some edge'
        ∧ (a'.layout roles').IsOtherwise edge edge')
    (hends : (bp.graph.node n).otherwise = none →
      (a'.machine.state s).otherwise = none
      ∧ ∃ code reason, (bp.graph.node n).kind = .error code reason) :
    Answers (match (bp.graph.node n).kind with
      | .invoke _ => do
          setEdges s
            (← (bp.graph.node n).edges.mapM (Blueprint.codeEdge visit name))
          return s
      | _ =>
        return s) a' fun s b => ∃ roles'', Tracks bp root pending b roles''
        ∧ Grows a roles b roles'' ∧ b.stateOf? n = some s := by
  have hplain : (∀ ref, (bp.graph.node n).kind ≠ .invoke ref) →
      Answers (Pure.pure s) a' fun s b => ∃ roles'',
        Tracks bp root pending b roles''
        ∧ Grows a roles b roles'' ∧ b.stateOf? n = some s := by
    intro hnot
    refine Answers.pure
      ⟨roles', h.close (.whole hfits ⟨fun e he => ?_, ?_⟩ hother hends)⟩
    · rw [hedges] at he
      cases he
    · intro hsome
      obtain ⟨ref, href⟩ := hsome
      exact absurd href (hnot ref)
  split
  · refine (codeEdges_answers hg hvisit hreach h.tracks hdepth).bind ?_
    intro edges b hpost
    obtain ⟨roles₂, htracks, hgrows, hcodes⟩ := hpost
    obtain ⟨hlast, hsame⟩ := h.grow htracks hgrows
    have hext :=
      hgrows.layout.trans (extends_changed b roles₂ s ({ · with edges }))
    refine Answers.setEdges_bind
      (Answers.pure ⟨roles₂, (hlast.changed _).close ?_⟩)
    rw [state_changed hlast.lt, if_pos rfl, hsame]
    refine .whole (hext.kindFits hfits)
      ((extends_changed b roles₂ s _).codeEdges hcodes)
      (fun edge hedge => ?_) hends
    obtain ⟨edge', hedge', hlike⟩ := hother edge hedge
    exact ⟨edge', hedge', hext.isOtherwise hlike⟩
  · rename_i hnot
    exact hplain hnot

/-- A node that is no match node becomes one state. -/
private theorem plainNode_answers (hg : bp.graph.Sound)
    (hvisit : Visits bp root depth visit) (h : Tracks bp root pending a roles)
    (hreach : bp.graph.Reaches root n) (hn : n < bp.graph.size)
    (hkind : ∀ t, (bp.graph.node n).kind ≠ .dispatch t)
    (hnew : a.stateOf? n = none) (hdepth : a.unentered ≤ depth + 1) :
    Answers (bp.plainNode visit n) a fun s b => ∃ roles',
      Tracks bp root pending b roles'
      ∧ Grows a roles b roles' ∧ b.stateOf? n = some s := by
  unfold Blueprint.plainNode
  dsimp only
  refine (stateKind_answers h (bp.graph.node n) hkind).bind ?_
  intro kind b hpost
  obtain ⟨htracks, hgrows, hfits, hentered⟩ := hpost
  refine Answers.addState_bind fun name stateNames => Answers.enter_bind ?_
  have hnew' : b.stateOf? n = none := by
    unfold stateOf? at hnew ⊢
    rw [hentered]
    exact hnew
  obtain ⟨hbegun, hstate, hless⟩ := htracks.begin hreach hn
    (.whole fun t ht => absurd ht (hkind t)) hnew'
    (Nat.le_trans hgrows.unentered hdepth) stateNames
    { name, nodeName := (bp.graph.node n).name, kind, transform := none }
  have hfits' := (hbegun.grows.layout).kindFits hfits
  have hpost : ∀ {c : Assembly} {roles₂ : List Role} {s : StateId},
      Tracks bp root pending c roles₂ ∧ Grows b roles c roles₂
        ∧ c.stateOf? n = some s →
        Tracks bp root pending c roles₂ ∧ Grows a roles c roles₂
            ∧ c.stateOf? n = some s :=
    fun h => ⟨h.1, hgrows.trans h.2.1, h.2.2⟩
  generalize (b.pushed stateNames
    { name, nodeName := (bp.graph.node n).name, kind,
      transform := none }).entering n b.machine.size
      = c at hbegun hstate hless hfits' ⊢
  split
  · rename_i edge hother
    refine (hvisit.target hg hreach (Graph.mem_allEdges.mpr (Or.inr hother))
      hbegun.tracks
    hless).bind ?_
    intro target d hpost
    obtain ⟨roles₂, htracks₂, hgrows₂, htarget⟩ := hpost
    obtain ⟨hlast, hsame⟩ := hbegun.grow htracks₂ hgrows₂
    refine Answers.setOtherwise_bind ?_
    have hmade :=
      hlast.changed
        ({ · with otherwise := some (.otherwise target edge.noAdvance) })
    have hstate' := state_changed hlast.lt b.machine.size
      ({ · with otherwise := some (.otherwise target edge.noAdvance) })
    rw [if_pos rfl, hsame, hstate] at hstate'
    have hext := hgrows₂.layout.trans (extends_changed d roles₂ b.machine.size
      ({ · with otherwise := some (.otherwise target edge.noAdvance) }))
    refine (hmade.edges_answers hg hvisit hreach
      (Nat.le_trans hgrows₂.unentered hless)
      ?_ ?_ ?_ ?_).mono
      fun s e h => ?_
    · rw [hstate']
      exact hext.kindFits hfits'
    · rw [hstate']
    · intro e he
      obtain rfl := Option.some.inj (hother.symm.trans he)
      exact ⟨.otherwise target edge.noAdvance, by
        rw [hstate'], rfl, rfl, htarget⟩
    · intro hnone
      rw [hother] at hnone
      cases hnone
    · obtain ⟨roles₃, hdone⟩ := h
      exact ⟨roles₃, hpost hdone⟩
  · rename_i code reason hnone herror
    refine (hbegun.edges_answers hg hvisit hreach hless ?_ ?_ ?_ ?_).mono
      fun s e h => ?_
    · rw [hstate]
      exact hfits'
    · rw [hstate]
    · intro e he
      rw [hnone] at he
      cases he
    · exact fun _ => ⟨by rw [hstate], code, reason, herror⟩
    · obtain ⟨roles₃, hdone⟩ := h
      exact ⟨roles₃, hpost hdone⟩
  · exact fun _ _ hrun => nomatch hrun

-- ============================================================== visits

/-- Where every node is entered, each has a state. -/
private theorem entered_of_zero (h : a.unentered = 0)
    (hn : n < a.entered.size) :
    ∃ s, a.stateOf? n = some s := by
  cases hs : a.stateOf? n with
  | some s => exact ⟨s, rfl⟩
  | none =>
      have hless := unentered_entering hn hs 0
      rw [h] at hless
      cases hless

/-- A visit that may nest as deep as there are nodes to enter visits its
node. -/
theorem visit_answers (hg : bp.graph.Sound) (depth : Nat) :
    Visits bp root depth (bp.visit depth) := by
  induction depth with
  | zero =>
      intro pending a roles n h _ hn hdepth
      obtain ⟨s, hs⟩ := entered_of_zero (Nat.le_zero.mp hdepth) (h.nodes ▸ hn)
      refine Answers.get_bind ?_
      rw [hs]
      exact Answers.pure ⟨roles, h, Grows.refl, hs⟩
  | succ depth ih =>
      intro pending a roles n h hreach hn hdepth
      unfold Blueprint.visit
      refine Answers.get_bind ?_
      cases hs : a.stateOf? n with
      | some s => exact Answers.pure ⟨roles, h, Grows.refl, hs⟩
      | none =>
          dsimp only
          split
          · rename_i t hkind
            exact matchNode_answers hg ih h hreach hn hkind hs hdepth
          · rename_i hkind
            exact plainNode_answers hg ih h hreach hn hkind hs hdepth

/-- Only nodes of the graph can be visited. -/
private theorem lt_of_visit (h : Tracks bp root pending a roles)
    {v : StateId × Assembly}
    (hrun : (bp.visit (depth + 1) n).run a = .ok v) : n < bp.graph.size := by
  rcases Nat.lt_or_ge n bp.graph.size with hlt | hge
  · exact hlt
  · have hnode := Graph.node_of_ge hge
    have hnone : a.stateOf? n = none := by
      unfold stateOf?
      rw [Array.getD_eq_getD_getElem?, Array.getElem?_eq_none (h.nodes ▸ hge)]
      rfl
    have hfails : Answers (bp.visit (depth + 1) n) a fun _ _ => False := by
      unfold Blueprint.visit
      refine Answers.get_bind ?_
      rw [hnone]
      dsimp only
      rw [hnode]
      unfold Blueprint.matchNode
      dsimp only
      rw [hnode]
      exact Answers.throw
    exact (hfails v.1 v.2 hrun).elim

-- =============================================================== slots

/-- The callbacks of a slot are those of the spans that use it. -/
structure IsSlot (l : Layout) (bp : Blueprint) (spans : List SpanId)
    (slot : SpanSlot) : Prop where
  used : ∀ c ∈ slot, ∃ span ∈ spans,
    l.machine.Compiles (bp.graph.code (bp.graph.spanCallback span)) c
  complete : ∀ span ∈ spans, ∃ c ∈ slot,
    l.machine.Compiles (bp.graph.code (bp.graph.spanCallback span)) c

theorem IsSlot.extend {l l' : Layout} (hext : l.Extends l')
    {spans : List SpanId} {slot : SpanSlot}
    (h : IsSlot l bp spans slot) : IsSlot l' bp spans slot where
  used c hc := by
    obtain ⟨span, hspan, hcode⟩ := h.used c hc
    exact ⟨span, hspan, hext.compiles hcode⟩
  complete span hspan := by
    obtain ⟨c, hc, hcode⟩ := h.complete span hspan
    exact ⟨c, hc, hext.compiles hcode⟩

/-- A callback more, and the slot it is put to. -/
private theorem IsSlot.add {l : Layout} {spans : List SpanId} {slot : SpanSlot}
    (h : IsSlot l bp spans slot) {span : SpanId} {c : CodeId}
    (hcode : l.machine.Compiles (bp.graph.code (bp.graph.spanCallback span))
      c) :
    (c ∈ slot → IsSlot l bp (spans ++ [span]) slot)
      ∧ IsSlot l bp (spans ++ [span]) (slot ++ [c]) := by
  have hused : ∀ c ∈ slot, ∃ span' ∈ spans ++ [span],
      l.machine.Compiles (bp.graph.code (bp.graph.spanCallback span')) c := by
    intro c hc
    obtain ⟨span', hspan, hcode⟩ := h.used c hc
    exact ⟨span', List.mem_append_left _ hspan, hcode⟩
  have hlast : span ∈ spans ++ [span] :=
    List.mem_append_right _ (List.mem_singleton.mpr rfl)
  refine ⟨fun hmem => ⟨hused, fun span' hspan => ?_⟩, fun c' hc => ?_,
    fun span' hspan => ?_⟩
  · rcases List.mem_append.mp hspan with hspan | hspan
    · exact h.complete span' hspan
    · rw [List.mem_singleton.mp hspan]
      exact ⟨c, hmem, hcode⟩
  · rcases List.mem_append.mp hc with hc | hc
    · exact hused c' hc
    · rw [List.mem_singleton.mp hc]
      exact ⟨span, hlast, hcode⟩
  · rcases List.mem_append.mp hspan with hspan | hspan
    · obtain ⟨c', hc, hcode'⟩ := h.complete span' hspan
      exact ⟨c', List.mem_append_left _ hc, hcode'⟩
    · rw [List.mem_singleton.mp hspan]
      exact ⟨c, List.mem_append_right _ (List.mem_singleton.mpr rfl), hcode⟩

private theorem slotCallbacks_fold {done spans : List SpanId} {slot : SpanSlot}
    (h : Tracks bp root pending a roles)
    (hslot : IsSlot (a.layout roles) bp done slot) :
    Answers (spans.foldlM (fun callbacks span => do
      let callback ← addCode (bp.graph.code (bp.graph.spanCallback span))
      return if callbacks.contains callback then callbacks else callbacks
        ++ [callback]) slot) a
        fun slot b => Tracks bp root pending b roles ∧ Grows a roles b roles
          ∧ IsSlot (b.layout roles) bp (done ++ spans) slot := by
  induction spans generalizing a done slot with
  | nil =>
      rw [List.append_nil]
      exact Answers.pure ⟨h, Grows.refl, hslot⟩
  | cons span spans ih =>
      rw [List.foldlM_cons]
      have hstep : Answers (do
          let callback ← addCode (bp.graph.code (bp.graph.spanCallback span))
          return if slot.contains callback then slot else slot ++ [callback]) a
            fun slot b => Tracks bp root pending b roles
              ∧ Grows a roles b roles
              ∧ IsSlot (b.layout roles) bp (done ++ [span]) slot := by
        refine (addCode_answers h _).bind ?_
        intro callback b hpost
        obtain ⟨hcode, htracks, hgrows, _⟩ := hpost
        have hlonger := (hslot.extend hgrows.layout).add hcode
        refine Answers.pure ⟨htracks, hgrows, ?_⟩
        split
        · rename_i hmem
          exact hlonger.1 (List.contains_iff_mem.mp hmem)
        · exact hlonger.2
      refine hstep.bind ?_
      intro slot' b hpost
      obtain ⟨htracks, hgrows, hslot'⟩ := hpost
      refine (ih htracks hslot').mono ?_
      intro slot'' c hpost
      obtain ⟨htracks', hgrows', hslot''⟩ := hpost
      rw [List.append_assoc] at hslot''
      exact ⟨htracks', hgrows.trans hgrows', hslot''⟩

/-- The callbacks of the spans of one slot are compiled. -/
theorem slotCallbacks_answers (h : Tracks bp root pending a roles)
    (spans : List SpanId) :
    Answers (bp.slotCallbacks spans) a fun slot b => Tracks bp root
      pending b roles
      ∧ Grows a roles b roles ∧ IsSlot (b.layout roles) bp spans slot :=
  have hempty : IsSlot (a.layout roles) bp [] [] :=
    ⟨fun _ hc => (nomatch hc), fun _ hs => (nomatch hs)⟩
  slotCallbacks_fold h hempty

/-- Assembling a graph finishes all states it adds. -/
theorem assemble_answers (hg : bp.graph.Sound)
    (h : Tracks bp root pending a roles) :
    Answers (bp.assemble root) a fun r b => ∃ roles',
      Tracks bp root pending b roles'
      ∧ List.Forall₂ (IsSlot (b.layout roles') bp) bp.spans.sharing r.1
      ∧ b.stateOf? root = some r.2 ∧ root < bp.graph.size := by
  have hslots : Answers (bp.spans.sharing.mapM bp.slotCallbacks) a
      fun slots b => ∃ roles',
      Tracks bp root pending b roles' ∧ Grows a roles b roles'
        ∧ List.Forall₂ (IsSlot (b.layout roles') bp) bp.spans.sharing
            slots := by
    refine Answers.mapM (R := fun l => IsSlot l bp)
      (fun hext hslot => hslot.extend hext)
      (fun spans _ a roles h _ => ?_) h (Nat.le_refl _)
    refine (slotCallbacks_answers h spans).mono ?_
    intro slot b hpost
    obtain ⟨htracks, hgrows, hslot⟩ := hpost
    exact ⟨roles, htracks, hgrows, hslot⟩
  unfold Blueprint.assemble
  refine hslots.bind ?_
  intro slots b hpost
  obtain ⟨roles₁, htracks, _, hforall⟩ := hpost
  have hdepth : b.unentered ≤ bp.graph.size + 1 := by
    rw [← htracks.nodes, ← Array.length_toList]
    exact Nat.le_succ_of_le List.countP_le_length
  intro r c hrun
  rw [StateT.run_bind] at hrun
  obtain ⟨⟨s, d⟩, hvisit, hrest⟩ := ok_of_bind hrun
  obtain ⟨rfl, rfl⟩ := Prod.mk.inj (Except.ok.inj hrest)
  have hlt := lt_of_visit htracks hvisit
  obtain ⟨roles₂, htracks', hgrows, hs⟩ :=
    visit_answers hg (bp.graph.size + 1) pending b roles₁ root
    htracks .refl hlt hdepth s d hvisit
  refine ⟨roles₂, htracks', ?_, hs, hlt⟩
  exact hforall.imp fun spans slot hslot => hslot.extend hgrows.layout

/-- Before anything is assembled nothing is there to be right about. -/
theorem tracks_start (bp : Blueprint) (root : NodeId) (symbolPrefix : String) :
    Tracks bp root (fun _ => False) (start symbolPrefix bp.graph.size) [] where
  size := rfl
  nodes := Array.size_replicate
  distinct i _ hi := absurd hi (Nat.not_lt_zero i)
  entered n s hs := by
    unfold stateOf? start at hs
    dsimp only at hs
    rw [Array.getD_eq_getD_getElem?, Array.getElem?_replicate] at hs
    split at hs <;> cases hs
  allowed _ hrole := nomatch hrole
  settled s role hs := by
    rw [List.getElem?_nil] at hs
    cases hs

/-- Whatever a sound graph is assembled into, its states do what they stand
for. -/
theorem assembled_tracks {g : Graph} {symbolPrefix : String}
    {options : Options} {slots : List SpanSlot} {r : StateId} {done : Assembly}
    (hg : g.Sound)
    (hok : Parser.assembled g root symbolPrefix options
      = .ok ((slots, r), done)) :
    ∃ spans roles, g.allocateSpans root = .ok spans
      ∧ Tracks ⟨g, options, spans⟩ root (fun _ => False) done roles
      ∧ List.Forall₂ (IsSlot (done.layout roles) ⟨g, options, spans⟩)
        spans.sharing slots
      ∧ done.stateOf? root = some r ∧ root < g.size := by
  obtain ⟨_, _, hrest⟩ := ok_of_bind hok
  obtain ⟨_, _, hrest⟩ := ok_of_bind hrest
  obtain ⟨spans, hspans, hrun⟩ := ok_of_bind hrest
  have hstart := tracks_start ⟨g, options, spans⟩ root symbolPrefix
  obtain ⟨roles, htracks, hslots, hr, hlt⟩ :=
    @assemble_answers ⟨g, options, spans⟩ root
    (fun _ => False) _ [] hg hstart (slots, r) done hrun
  exact ⟨spans, roles, hspans, htracks, hslots, hr, hlt⟩

end Assembly

end Bytewise

/-
What the search for unread loops answers, exactly.

A byte passes an edge (`Node.LetsPass`), is brought along such edges from
a start (`Brings`), and keeps an edge alive that it arrives at and passes
(`LiveEdge`): the three notions know nothing of sets of bytes or of the
order of a search. The spreading of bytes ends with the bytes that arrive
and no others (`arrivalsFrom_iff`), and a graph is refused if and only if
the live edges of some start lead around. What the search then names is a
lasso: a way from the start, each node once, and an edge back into it.
-/
import Mathlib.Data.List.Chain
import Mathlib.Data.List.Nodup
import Bytewise.Proofs.Graph.Lawful
import Bytewise.Proofs.Graph.Loops

namespace Bytewise

-- ============================================================== passing

/-- The byte `c` passes the edge: nothing is consumed by it, no key that the
node consumes starts with `c`, and a key of bytes, if the edge has one,
does. -/
structure Node.LetsPass (node : Node) (e : Edge) (c : UInt8) : Prop where
  mem : e ∈ node.allEdges
  stays : e.noAdvance = true
  unconsumed : ∀ o ∈ node.edges, o.noAdvance = false →
    ∀ bs, o.key = some (.bytes bs) →
    bs.head? ≠ some c
  key : ∀ bs, e.key = some (.bytes bs) → bs.head? = some c

theorem Edge.firstByte?_eq_some {e : Edge} {b : UInt8} :
    e.firstByte? = some b ↔ ∃ bs, e.key = some (.bytes bs)
        ∧ bs.head? = some b := by
  unfold Edge.firstByte?
  rw [Option.bind_eq_some_iff]
  constructor
  · rintro ⟨key, hkey, hb⟩
    cases key with
    | bytes bs => exact ⟨bs, hkey, hb⟩
    | code code => cases hb
  · rintro ⟨bs, hkey, hb⟩
    exact ⟨.bytes bs, hkey, hb⟩

namespace Graph

/-- The byte `c` passes an edge from `a` to `b`. -/
def HandsOn (g : Graph) (c : UInt8) (a b : NodeId) : Prop :=
  ∃ e, (g.node a).LetsPass e c ∧ e.target = b

/-- A path of edges that `c` passes leads from `start` to `a`. -/
def Brings (g : Graph) (start : NodeId) (c : UInt8) (a : NodeId) : Prop :=
  Relation.ReflTransGen (g.HandsOn c) start a

/-- Some byte that arrives at `a` passes the edge. -/
def LiveEdge (g : Graph) (start a : NodeId) (e : Edge) : Prop :=
  ∃ c, g.Brings start c a ∧ (g.node a).LetsPass e c

/-- A live edge leads from `a` to `b`. -/
def LiveStep (g : Graph) (start a b : NodeId) : Prop :=
  ∃ e, g.LiveEdge start a e ∧ e.target = b

variable {g : Graph} {start root a b : NodeId} {c : UInt8}

/-- The builder makes no key without a byte. -/
theorem Sound.key_ne_nil (hg : g.Sound) {e : Edge}
    (he : e ∈ (g.node a).allEdges) {bs : List UInt8}
    (hkey : e.key = some (.bytes bs)) : bs ≠ [] := by
  have hnode := Node.lawful_of_sound (hg.nodes a (lt_of_mem_allEdges he))
  rcases mem_allEdges.mp he with hmem | hother
  · rcases hnode.keyed (List.ne_nil_of_mem hmem) with ⟨t, hkind⟩ | ⟨ref, hkind⟩
    · obtain ⟨bs', hkey', hne, -⟩ := hnode.bytes t hkind e hmem
      cases hkey.symm.trans hkey'
      exact hne
    · obtain ⟨⟨code, hcode⟩, -⟩ := hnode.returns ref hkind e hmem
      cases hkey.symm.trans hcode
  · cases hkey.symm.trans (hnode.otherwise e hother).1

/-- Between nodes of a sound graph the search knows the same passing bytes. -/
theorem Sound.handsOn_iff (hg : g.Sound) :
    g.HandsOn c a b ↔ g.Passes c a b := by
  unfold Passes Node.Passes
  rw [Bool.eq_false_iff, ne_eq, Node.contains_consumedBytes]
  constructor
  · rintro ⟨e, ⟨hmem, hstays, hfree, hkey⟩, htarget⟩
    refine ⟨?_, e, hmem, hstays, htarget, fun x hx => ?_⟩
    · rintro ⟨o, ho, hadv, hfirst⟩
      obtain ⟨bs, hbs, hhead⟩ := Edge.firstByte?_eq_some.mp hfirst
      exact hfree o ho hadv bs hbs hhead
    · obtain ⟨bs, hbs, hhead⟩ := Edge.firstByte?_eq_some.mp hx
      exact Option.some.inj ((hkey bs hbs).symm.trans hhead)
  · rintro ⟨hfree, e, hmem, hstays, htarget, hkey⟩
    refine ⟨e, ⟨hmem, hstays, fun o ho hadv bs hbs hhead => ?_, fun bs hbs =>
      ?_⟩, htarget⟩
    · exact hfree ⟨o, ho, hadv, Edge.firstByte?_eq_some.mpr ⟨bs, hbs, hhead⟩⟩
    · obtain ⟨x, rest, rfl⟩ :=
        List.exists_cons_of_ne_nil (hg.key_ne_nil hmem hbs)
      rw [hkey x (Edge.firstByte?_eq_some.mpr ⟨_, hbs, rfl⟩)]
      rfl

theorem HandsOn.leads (h : g.HandsOn c a b) : g.Leads a b := by
  obtain ⟨e, hpass, rfl⟩ := h
  exact leads_of_edge hpass.mem

/-- A byte arrives at nodes that the start leads to. -/
theorem Brings.reaches (h : g.Brings start c a) : g.Reaches start a :=
  h.lift id fun _ _ => HandsOn.leads

-- ============================================================ spreading

/-- A start that all bytes arrive at, before any is passed on. -/
def allAt (g : Graph) (start : NodeId) : Arrivals :=
  (Array.replicate g.size ∅).setIfInBounds start ByteSet.full

/-- Passing on the bytes of waiting nodes one after another ends, when none
waits any more. -/
inductive SpreadsTo (g : Graph) : List NodeId → Arrivals →
    Arrivals → Prop where
  | done (arrivals : Arrivals) : SpreadsTo g [] arrivals arrivals
  | pass {id : NodeId} {waiting : List NodeId} {arrivals last : Arrivals}
      (rest : SpreadsTo g
        (((g.node id).unreadFlow (arrivals.getD id ∅)).foldl pour
          (waiting, arrivals)).1
        (((g.node id).unreadFlow (arrivals.getD id ∅)).foldl pour
          (waiting, arrivals)).2 last) :
      SpreadsTo g (id :: waiting) arrivals last

/-- What a step passes on arrives, if what is passed on did. -/
private theorem arrives_of_pours (hg : g.Sound) {id : NodeId}
    {waiting : List NodeId} {arrivals : Arrivals}
    (hsize : arrivals.size = g.size)
    (hinv : ∀ a c, arrivals.Has a c → g.Brings start c a)
    (h : (((g.node id).unreadFlow (arrivals.getD id ∅)).foldl pour
      (waiting, arrivals)).2.Has a c) :
    g.Brings start c a := by
  rcases has_of_pours (by rw [hsize]; exact hg.unreadFlow_lt) h with h
    | ⟨bytes, hmem, hc⟩
  · exact hinv a c h
  · obtain ⟨hbrings, hpass⟩ := Node.mem_unreadFlow.mp ⟨bytes, hmem, hc⟩
    exact (hinv id c hbrings).tail (hg.handsOn_iff.mpr hpass)

/-- Within its bound the spreading ends, and brings a byte nowhere but where it
arrives. -/
theorem spread_exact (hg : g.Sound) {bound : Nat} {waiting : List NodeId}
    {arrivals : Arrivals} (hsize : arrivals.size = g.size)
    (hbound : waiting.length + arrivals.missing ≤ bound)
    (hinv : ∀ a c, arrivals.Has a c → g.Brings start c a) :
    g.SpreadsTo waiting arrivals (g.spread bound waiting arrivals)
      ∧ ∀ a c, (g.spread bound waiting arrivals).Has a c →
          g.Brings start c a := by
  induction bound generalizing waiting arrivals with
  | zero =>
      obtain rfl : waiting = [] := List.length_eq_zero_iff.mp (by omega)
      exact ⟨.done arrivals, hinv⟩
  | succ bound ih =>
      cases waiting with
      | nil => exact ⟨.done arrivals, hinv⟩
      | cons id waiting =>
          obtain ⟨hgrows, -⟩ :=
            @pours_grow ((g.node id).unreadFlow (arrivals.getD id ∅))
            (waiting, arrivals) (by rw [hsize]; exact hg.unreadFlow_lt)
          have hpaid : _ ≤ waiting.length + arrivals.missing := hgrows.paid
          rw [List.length_cons] at hbound
          obtain ⟨hends, hbrings⟩ := ih (hgrows.size.trans hsize)
            (Nat.le_trans hpaid (by omega)) fun a c h => arrives_of_pours
            hg hsize hinv h
          exact ⟨.pass hends, hbrings⟩

/-- All bytes arrive at the start, and none anywhere else before it is passed
on. -/
private theorem has_allAt (h : (g.allAt start).Has a c) : a = start := by
  by_contra hne
  unfold allAt Arrivals.Has at h
  by_cases hlt : a < g.size
  · simp [Ne.symm hne, hlt] at h
  · simp [hlt] at h

theorem spreadsTo_arrivalsFrom (hg : g.Sound) :
    g.SpreadsTo [start] (g.allAt start) (g.arrivalsFrom start)
      ∧ ∀ a c, (g.arrivalsFrom start).Has a c → g.Brings start c a := by
  refine spread_exact hg (by simp [allAt]) ?_ fun a c h => ?_
  · have hmissing := Arrivals.missing_le (g.allAt start)
    rw [allAt, Array.size_setIfInBounds, Array.size_replicate] at hmissing
    rw [List.length_singleton, allAt]
    omega
  · rw [has_allAt h]
    exact .refl

/-- What is spread from a start is what arrives. -/
theorem arrivalsFrom_iff (hg : g.Sound) (hstart : start < g.size) :
    (g.arrivalsFrom start).Has a c ↔ g.Brings start c a := by
  obtain ⟨hfull, hclosed⟩ := arrivalsFrom_closed hg hstart
  refine ⟨fun h => (spreadsTo_arrivalsFrom hg).2 a c h, fun h => ?_⟩
  induction h with
  | refl => exact hfull c
  | tail _ hpass ih => exact hclosed _ _ c ih (hg.handsOn_iff.mp hpass)

-- ============================================================ searching

/-- Live edges are those that the search follows. -/
theorem live_iff (hg : g.Sound) (hstart : start < g.size) :
    g.Live (g.arrivalsFrom start) a b ↔ g.LiveStep start a b := by
  constructor
  · intro h
    obtain ⟨⟨target, bytes⟩, hflow, rfl⟩ := List.mem_map.mp h
    -- no flow is empty
    obtain ⟨c, hc⟩ : ∃ c, bytes.contains c = true := by
      by_contra hnone
      push Not at hnone
      have hempty : bytes.isEmpty = true :=
        (ByteSet.isEmpty_iff bytes).mpr fun c =>
          Bool.eq_false_iff.mpr (hnone c)
      unfold Node.unreadFlow at hflow
      dsimp only at hflow
      split at hflow
      · cases hflow
      · have hkept := (List.mem_filter.mp hflow).2
        rw [hempty] at hkept
        cases hkept
    obtain ⟨hbrings, hpass⟩ := Node.mem_unreadFlow.mp ⟨bytes, hflow, hc⟩
    obtain ⟨e, hlets, htarget⟩ := hg.handsOn_iff.mpr hpass
    exact ⟨e, ⟨c, (arrivalsFrom_iff hg hstart).mp hbrings, hlets⟩, htarget⟩
  · rintro ⟨e, ⟨c, hbrings, hlets⟩, rfl⟩
    have hpass : g.Passes c a e.target := hg.handsOn_iff.mp ⟨e, hlets, rfl⟩
    exact hpass.live ((arrivalsFrom_iff hg hstart).mpr hbrings)

/-- A way from `start` along `step` that comes to each node of `ids` once, and
a step back from the last of them to one of them. -/
structure Lasso (step : NodeId → NodeId → Prop) (start : NodeId)
    (ids : List NodeId) (back : NodeId) : Prop where
  distinct : ids.Nodup
  chain : (start :: ids).IsChain step
  mem : back ∈ ids
  returns : ∃ last ∈ ids.getLast?, step last back

/-- The cause that names the nodes of a lasso. -/
def loopCause (g : Graph) (ids : List NodeId) (back : NodeId) : Cause :=
  .loop (g.node back).name (ids.map fun id => (g.node id).name)

/-- The search has come from `start` to `id` along its path. -/
structure Trail (step : NodeId → NodeId → Prop) (start : NodeId)
    (path : List NodeId) (id : NodeId) : Prop where
  distinct : path.Nodup
  chain : (path ++ [start]).IsChain fun b a => step a b
  head : (path ++ [start]).head? = some id

variable {step : NodeId → NodeId → Prop} {path : List NodeId}
  {id next : NodeId}

theorem Trail.nil (start : NodeId) : Trail step start [] start where
  distinct := List.nodup_nil
  chain := .singleton start
  head := rfl

/-- One more step, to a node that the path has not come to. -/
theorem Trail.cons (h : Trail step start path id) (hstep : step id next)
    (hnew : next ∉ path) :
    Trail step start (next :: path) next where
  distinct := List.nodup_cons.mpr ⟨hnew, h.distinct⟩
  chain := by
    obtain ⟨hdistinct, hchain, hhead⟩ := h
    rw [List.cons_append]
    cases htrail : path ++ [start] with
    | nil => exact .singleton next
    | cons first rest =>
        rw [htrail] at hchain hhead
        obtain rfl := Option.some.inj hhead
        exact List.isChain_cons_cons.mpr ⟨hstep, hchain⟩
  head := rfl

/-- A step to a node that the path has come to closes a lasso. -/
theorem Trail.lasso (h : Trail step start path id) (hstep : step id next)
    (hnext : next ∈ path) :
    Lasso step start path.reverse next where
  distinct := List.nodup_reverse.mpr h.distinct
  chain := by
    have hreverse := List.isChain_reverse.mpr h.chain
    rwa [List.reverse_append] at hreverse
  mem := List.mem_reverse.mpr hnext
  returns := by
    refine ⟨id, ?_, hstep⟩
    have hhead := h.head
    rw [List.head?_append_of_ne_nil _ (List.ne_nil_of_mem hnext)] at hhead
    rw [List.getLast?_reverse]
    exact hhead

/-- What the search fails with names a lasso of edges that it follows. -/
theorem searchCycle_fails {arrivals : Arrivals} {depth : Nat}
    (done : Array Bool) (h : Trail (g.Live arrivals) start path id) :
    FailsWith (fun cause => ∃ ids back, Lasso (g.Live arrivals) start ids back
      ∧ cause = g.loopCause ids back)
          (searchCycle g arrivals depth path id done) := by
  induction depth generalizing path id done with
  | zero => exact .ok done
  | succ depth ih =>
      unfold searchCycle
      split
      · exact .ok done
      · refine (FailsWith.foldlM done fun seen next hnext => ?_).bind
          fun last _ => .ok _
        split
        · rename_i hmem
          rintro cause hcause
          obtain rfl := Except.error.inj hcause
          refine ⟨path.reverse, next,
            h.lasso hnext (List.contains_iff_mem.mp hmem), ?_⟩
          rfl
        · rename_i hnew
          exact ih seen (h.cons hnext (mt List.contains_iff_mem.mpr hnew))

theorem Lasso.imp {step' : NodeId → NodeId → Prop} {ids : List NodeId}
    {back : NodeId} (h : Lasso step start ids back)
    (himp : ∀ a b, step a b → step' a b) :
    Lasso step' start ids back where
  distinct := h.distinct
  chain := h.chain.imp himp
  mem := h.mem
  returns := by
    obtain ⟨last, hlast, hstep⟩ := h.returns
    exact ⟨last, hlast, himp _ _ hstep⟩

/-- A lasso leads around. -/
theorem Lasso.round {ids : List NodeId} {back : NodeId}
    (h : Lasso step start ids back) :
    Relation.TransGen step back back := by
  obtain ⟨last, hlast, hreturns⟩ := h.returns
  obtain ⟨front, rest, rfl⟩ := List.append_of_mem h.mem
  rw [List.getLast?_append_of_ne_nil _ (List.cons_ne_nil back rest)] at hlast
  have hchain : (back :: rest).IsChain step := by
    have hall := h.chain
    rw [← List.cons_append, List.isChain_split] at hall
    exact hall.2
  have hway := List.relationReflTransGen_of_exists_isChain_cons rest hchain
    (List.getLast_of_getLast?_eq_some hlast)
  exact .tail' hway hreturns

/-- What the check of a start fails with names a lasso of live edges. -/
theorem checkLoopsFrom_fails (hg : g.Sound) (start : NodeId) :
    FailsWith (fun cause => ∃ ids back, Lasso (g.LiveStep start) start ids back
      ∧ cause = g.loopCause ids back) (g.checkLoopsFrom start) := by
  intro cause hfails
  obtain ⟨ids, back, hlasso, hcause⟩ :=
    ((searchCycle_fails _ (.nil start)).bind fun _ _ => .ok ()) cause hfails
  -- the first step of a lasso leaves a node of the graph
  have hstart : start < g.size := by
    obtain ⟨first, rest, rfl⟩ :=
      List.exists_cons_of_ne_nil (List.ne_nil_of_mem hlasso.mem)
    exact lt_of_leads (List.isChain_cons_cons.mp hlasso.chain).1.leads
  exact ⟨ids, back, hlasso.imp fun a b => (live_iff hg hstart).mp, hcause⟩

/-- Only nodes of the graph have live edges. -/
theorem LiveEdge.lt {e : Edge} (h : g.LiveEdge start a e) :
    start < g.size := by
  obtain ⟨c, hbrings, hlets⟩ := h
  rcases Relation.ReflTransGen.cases_head hbrings with rfl | ⟨b, hstep, -⟩
  · exact lt_of_mem_allEdges hlets.mem
  · exact lt_of_leads hstep.leads

/-- A byte arrives along live edges. -/
theorem Brings.live (h : g.Brings start c a) :
    Relation.ReflTransGen (g.LiveStep start) start a := by
  induction h with
  | refl => exact .refl
  | tail hbrings hstep ih =>
      obtain ⟨e, hlets, htarget⟩ := hstep
      exact ih.tail ⟨e, ⟨c, hbrings, hlets⟩, htarget⟩

/-- A start whose live edges lead around is refused. -/
theorem not_ok_of_round (hg : g.Sound)
    (hround : Relation.TransGen (g.LiveStep start) a a) :
    g.checkLoopsFrom start ≠ .ok () := by
  intro hok
  obtain ⟨b, ⟨e, hlive, -⟩, -⟩ := Relation.TransGen.head'_iff.mp hround
  have hstart : start < g.size := hlive.lt
  obtain ⟨c, hbrings, -⟩ := hlive
  have hfollows : ∀ a b, g.LiveStep start a b →
      g.Live (g.arrivalsFrom start) a b :=
    fun a b => (live_iff hg hstart).mpr
  exact (ends_of_checkLoopsFrom hg hstart hok).not_round
    (hbrings.live.lift id hfollows)
    (hround.lift id hfollows)

-- ============================================================== answers

/-- The spreading from a node of the graph ends, with the bytes that arrive; a
graph is refused if and only if the live edges of some start lead around, and
then a lasso of such edges is named. -/
theorem checkLoops_finds (hg : g.Built) (root : NodeId) :
    (∀ start < g.size, g.SpreadsTo [start] (g.allAt start)
      (g.arrivalsFrom start)
      ∧ ∀ a c, (g.arrivalsFrom start).Has a c ↔ g.Brings start c a)
    ∧ ((∃ cause, g.checkLoops root = .error cause)
      ↔ ∃ start, g.Reaches root start
        ∧ ∃ a, Relation.TransGen (g.LiveStep start) a a)
    ∧ ∀ cause, g.checkLoops root = .error cause → ∃ start ids back,
      g.Reaches root start
      ∧ Lasso (g.LiveStep start) start ids back
          ∧ cause = g.loopCause ids back := by
  have hsound := hg.sound
  have hfails : FailsWith (fun cause => ∃ start ids back, g.Reaches root start
      ∧ Lasso (g.LiveStep start) start ids back ∧ cause = g.loopCause ids back)
      (g.checkLoops root) := by
    refine FailsWith.forM fun start hstart cause hcause => ?_
    obtain ⟨ids, back, hlasso⟩ :=
      checkLoopsFrom_fails hsound start cause hcause
    exact ⟨start, ids, back, hsound.mem_reachable.mp hstart, hlasso⟩
  refine ⟨fun start hstart => ⟨(spreadsTo_arrivalsFrom hsound).1, fun a c =>
    arrivalsFrom_iff hsound hstart⟩, ⟨?_, ?_⟩, hfails⟩
  · rintro ⟨cause, hcause⟩
    obtain ⟨start, ids, back, hreach, hlasso, -⟩ := hfails cause hcause
    exact ⟨start, hreach, back, hlasso.round⟩
  · rintro ⟨start, hreach, a, hround⟩
    cases hcheck : g.checkLoops root with
    | error cause => exact ⟨cause, rfl⟩
    | ok done =>
        exact absurd (ok_of_forM hcheck (hsound.mem_reachable.mpr hreach))
          (not_ok_of_round hsound hround)

/-- A byte that is peeked at leads to a call, which may answer so that it is
peeked at again. -/
def askedAgain : Graph :=
  Build.replay [.node "start", .node "a", .externalCode "nop" .plain,
    .invoke 0, .error 1 "error",
    .on 2 0 0, .otherwise 2 3, .peek 0 0x61 1, .otherwise 0 3,
      .otherwise 1 2] {}

/-- The loop is found, and named from the node behind the start on. -/
theorem askedAgain_lasso :
    askedAgain.checkLoops 0 = .error (.loop "a" ["a", "invoke_nop", "start"])
    ∧ ∃ start ids back, askedAgain.Reaches 0 start
      ∧ Lasso (askedAgain.LiveStep start) start ids back
      ∧ askedAgain.loopCause ids back
          = .loop "a" ["a", "invoke_nop", "start"] := by
  have hbuilt : askedAgain.Built := Built.new.replay (by decide +kernel)
  have hcheck : askedAgain.checkLoops 0
      = .error (.loop "a" ["a", "invoke_nop", "start"]) := by
    decide +kernel
  obtain ⟨start, ids, back, hreach, hlasso, hcause⟩ :=
    (checkLoops_finds hbuilt 0).2.2 _ hcheck
  exact ⟨hcheck, start, ids, back, hreach, hlasso, hcause.symm⟩

end Graph

end Bytewise

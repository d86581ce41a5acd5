/-
What a call that fails leaves behind.

A call checks what it is given before it touches the graph, so a refusal
costs nothing. The span nodes made for a target are the exception: they are
there before the target is asked. The target refuses only where it takes a
value, since the node itself is new and may have an edge. So what a call
adds in vain is told from the call and the graph alone.
-/
import Bytewise.Proofs.Graph.Lawful

namespace Bytewise

namespace Build

open Bytewise.Graph (Serves)

variable {g : Graph} {call : Call}

-- ============================================================== calls

/-- The call adds or changes one thing. A list of keys is as many calls. -/
def Call.Single : Call → Prop
  | .matchAny .. | .peekAny .. => False
  | _ => True

/-- The call answers an error. -/
def Call.Fails (call : Call) (g : Graph) : Prop :=
  ∃ cause, (call.perform.run.run g).1 = .error cause

/-- The call asks for a span node before a code that takes a value. Such a node
cannot have its edge, and `node` is what is made of it. -/
inductive Call.Strays (g : Graph) : Call → Node → Prop where
  | start {span : SpanId} {next : NodeId} (takes : g.TakesValue next) :
      Strays g (.spanStart span (some next))
        { name := "span_start_" ++ g.spanName span, kind := .spanStart span }
  | finish {span : SpanId} {next : NodeId} (takes : g.TakesValue next) :
      Strays g (.spanEnd span (some next))
        { name := "span_end_" ++ g.spanName span, kind := .spanEnd span }

/-- A node more is another graph. -/
theorem push_ne (g : Graph) (node : Node) :
    { g with nodes := g.nodes.push node } ≠ g := by
  intro heq
  have hsize := congrArg Graph.size heq
  simp [Graph.size] at hsize

-- ========================================================= no effect

/-- A program that fails has not changed the graph. -/
def Harmless {α : Type} (x : Build α) (g : Graph) : Prop :=
  ∀ cause, (x.run.run g).1 = .error cause → after x g = g

/-- What makes one change or none is harmless. -/
theorem Makes.harmless {x : Build Unit} {g' : Graph} (h : Makes x g g') :
    Harmless x g := by
  intro cause hfails
  rcases h with ⟨hrun, -⟩ | ⟨_, hrun⟩
  · rw [hrun] at hfails
    cases hfails
  · rw [after, hrun]

/-- Dropping the answer makes no difference. -/
theorem Harmless.drop {α : Type} {x : Build α} (h : Harmless x g) :
    Harmless (do let _ ← x) g := by
  intro cause hfails
  rw [after_drop]
  rw [run_bind] at hfails
  refine h cause ?_
  rcases hrun : x.run.run g with ⟨r | r, g'⟩
  · rw [hrun] at hfails
    simpa using hfails
  · rw [hrun] at hfails
    cases hfails

/-- A program that cannot fail is harmless. -/
theorem harmless_of_ok {α : Type} {x : Build α} {a : α}
    (h : (x.run.run g).1 = .ok a) :
    Harmless x g := by
  intro cause hfails
  rw [h] at hfails
  cases hfails

theorem harmless_throw {α : Type} (cause : Cause) :
    Harmless (throw cause : Build α) g :=
  fun _ _ => rfl

/-- Looking at the graph is harmless. -/
theorem Harmless.get {α : Type} {f : Graph → Build α} (h : Harmless (f g) g) :
    Harmless (get >>= f) g :=
  h

-- ========================================================= span nodes

/-- An edge without a value is refused just where its target takes one. -/
theorem targetFault_none_iff (hg : g.Built) {next : NodeId}
    (hnext : next < g.size) :
    targetFault? g (g.node next).kind none = none ↔ ¬ g.TakesValue next := by
  constructor
  · intro hnone htakes
    exact Bool.false_ne_true ((Graph.isSome_iff_takesValue hnone).mpr htakes)
  · intro htakes
    unfold targetFault?
    cases hkind : (g.node next).kind with
    | invoke ref =>
        have hspan := ((hg.lawful.nodes next hnext).callee ref hkind).2
        cases hsignature : (g.code ref).signature with
        | plain => simp [hsignature]
        | value => exact absurd ⟨ref, hkind, hsignature⟩ htakes
        | span => exact absurd hsignature hspan
    | _ => rfl

/-- What a cache answers leads on to its target, so the target takes no
value. -/
theorem not_takesValue_of_serves (hg : g.Built) {kind : NodeKind}
    {next id : NodeId} (h : g.Serves kind next id) : ¬ g.TakesValue next := by
  intro htakes
  have hmem : (⟨none, next, true, none⟩ : Edge) ∈ (g.node id).allEdges :=
    List.mem_append_right _ (by rw [h.leads]; exact List.mem_singleton_self _)
  exact Bool.false_ne_true
    (((hg.lawful.nodes id h.known).values _ hmem).mpr htakes)

/-- A new node with an edge to `next` in hand: the edge is refused just where
the target takes a value. -/
theorem run_otherwise_pushed (hg : g.Built) {next : NodeId}
    (hnext : next < g.size) (name : String) {kind : NodeKind}
    (hkind : ∀ code reason, kind ≠ .error code reason) :
    let pushed : Graph := { g with nodes := g.nodes.push { name, kind } }
    (g.TakesValue next →
        ∃ cause, (otherwise g.size next).run.run pushed
          = (.error cause, pushed))
      ∧ (¬ g.TakesValue next → ∃ g', (otherwise g.size next).run.run pushed
          = (.ok (), g')) := by
  intro pushed
  have hnode : pushed.node g.size = { name, kind } := node_push g _
  have htarget : targetFault? pushed (pushed.node next).kind none
      = targetFault? g (g.node next).kind none := by
    rw [Graph.node_push_of_lt hnext]
    rfl
  have hrun : (otherwise g.size next).run.run pushed
      = (targetFault? g (g.node next).kind none).elim
          (.ok (), pushed.putOtherwise g.size ⟨none, next, true, none⟩)
          fun fault => (.error (.invalidEdge name fault), pushed) := by
    unfold Build.otherwise setOtherwise
    rw [run_bind, run_get]
    dsimp only
    rw [hnode]
    dsimp only
    split
    · rename_i code reason
      exact absurd rfl (hkind code reason)
    · rw [Option.isSome_none, if_neg Bool.false_ne_true, run_bind,
        run_checkTarget]
      dsimp only
      rw [htarget, hnode]
      cases targetFault? g (g.node next).kind none <;> rfl
  constructor
  · intro htakes
    cases hfault : targetFault? g (g.node next).kind none with
    | none => exact absurd htakes ((targetFault_none_iff hg hnext).mp hfault)
    | some fault =>
        rw [hfault] at hrun
        exact ⟨_, hrun⟩
  · intro htakes
    rw [(targetFault_none_iff hg hnext).mpr htakes] at hrun
    exact ⟨_, hrun⟩

/-- The steps that make a span node for a target. They fail just where the
target takes a value, and then the node stays without an edge. -/
theorem run_spanNode (hg : g.Built) {next : NodeId} (hnext : next < g.size)
    {name : String} {kind : NodeKind}
    (hkind : ∀ code reason, kind ≠ .error code reason)
    (cache : NodeId → Graph → Graph) :
    let x : Build NodeId := do
      let id ← push name kind
      Build.otherwise id next
      modify (cache id)
      return id
    (g.TakesValue next →
        ∃ cause, x.run.run g
          = (.error cause, { g with nodes := g.nodes.push { name, kind } }))
      ∧ (¬ g.TakesValue next → (x.run.run g).1 = .ok g.size) := by
  intro x
  obtain ⟨hrefused, haccepted⟩ := run_otherwise_pushed hg hnext name hkind
  constructor
  · intro htakes
    obtain ⟨cause, hrun⟩ := hrefused htakes
    refine ⟨cause, ?_⟩
    rw [run_bind, run_push]
    dsimp only
    rw [run_bind, hrun]
  · intro htakes
    obtain ⟨g', hrun⟩ := haccepted htakes
    rw [run_bind, run_push]
    dsimp only
    rw [run_bind, hrun]
    rfl

/-- A cache is asked first. What it holds leads to a target that takes no
value, so asking it makes no difference to what fails. -/
theorem run_cachedSpanNode (hg : g.Built) {next : NodeId}
    (hnext : next < g.size) {name : String} {kind : NodeKind}
    (hkind : ∀ code reason, kind ≠ .error code reason)
    (cache : NodeId → Graph → Graph) (cached : Option NodeId) :
    let x : Build NodeId :=
      match cached with
      | some id => return id
      | none => do
        let id ← push name kind
        Build.otherwise id next
        modify (cache id)
        return id
    (∀ id ∈ cached, g.Serves kind next id) →
      (g.TakesValue next →
        ∃ cause, x.run.run g
          = (.error cause, { g with nodes := g.nodes.push { name, kind } }))
      ∧ (¬ g.TakesValue next → ∃ id, (x.run.run g).1 = .ok id) := by
  intro x hcached
  cases cached with
  | some id =>
      exact ⟨fun h => absurd h (not_takesValue_of_serves hg (hcached id rfl)),
      fun _ => ⟨id, rfl⟩⟩
  | none =>
      obtain ⟨hrefused, haccepted⟩ := run_spanNode hg hnext hkind cache
      exact ⟨hrefused, fun h => ⟨_, haccepted h⟩⟩

private theorem mem_of_lookup {α β : Type} [BEq α] [LawfulBEq α]
    {a : α} {b : β} {pairs : List (α × β)}
    (h : pairs.lookup a = some b) : (a, b) ∈ pairs := by
  obtain ⟨front, back, rfl, -⟩ := List.lookup_eq_some_iff.mp h
  exact List.mem_append_right _ List.mem_cons_self

/-- The call asks for a span node before `next`, and `node` is what it makes if
its cache holds none. -/
inductive SpanCall (g : Graph) (span : SpanId) (next : NodeId) :
    Build NodeId → Node → Prop where
  | start : SpanCall g span next (spanStart span (some next))
      { name := "span_start_" ++ g.spanName span, kind := .spanStart span }
  | finish : SpanCall g span next (spanEnd span (some next))
      { name := "span_end_" ++ g.spanName span, kind := .spanEnd span }

/-- Both kinds of span nodes are made the same way, each with its own cache. -/
theorem SpanCall.run (hg : g.Built) {span : SpanId} {next : NodeId}
    (hnext : next < g.size) {x : Build NodeId} {node : Node}
    (h : SpanCall g span next x node) :
    (g.TakesValue next → ∃ cause, x.run.run g
        = (.error cause, { g with nodes := g.nodes.push node }))
      ∧ (¬ g.TakesValue next → ∃ id, (x.run.run g).1 = .ok id) := by
  cases h with
  | start =>
      unfold spanStart
      rw [run_bind, run_get]
      exact run_cachedSpanNode hg hnext (fun _ _ h => NodeKind.noConfusion h) _
        _ fun id hid => hg.caches.starts span next id (mem_of_lookup hid)
  | finish =>
      unfold spanEnd
      rw [run_bind, run_get]
      exact run_cachedSpanNode hg hnext (fun _ _ h => NodeKind.noConfusion h) _
        _ fun id hid => hg.caches.ends span next id (mem_of_lookup hid)

-- ============================================================ the rule

/-- A call that strays fails, and has added its node. -/
theorem Call.Strays.run (hg : g.Built) (hv : call.Valid g) {node : Node}
    (h : call.Strays g node) :
    ∃ cause, call.perform.run.run g
        = (.error cause, { g with nodes := g.nodes.push node }) := by
  cases h with
  | @start span next takes =>
      obtain ⟨cause, hrun⟩ := (SpanCall.start.run hg (hv.2 next rfl)).1 takes
      refine ⟨cause, ?_⟩
      rw [Call.perform, run_bind, hrun]
  | @finish span next takes =>
      obtain ⟨cause, hrun⟩ := (SpanCall.finish.run hg (hv.2 next rfl)).1 takes
      refine ⟨cause, ?_⟩
      rw [Call.perform, run_bind, hrun]

/-- Every other call that adds or changes one thing does it or nothing. -/
theorem Call.harmless (hg : g.Built) (hv : call.Valid g) (single : call.Single)
    (straight : ∀ node, ¬ call.Strays g node) : Harmless call.perform g := by
  cases call with
  | matchAny id keys next => exact single.elim
  | peekAny id bytes next => exact single.elim
  | invoke code =>
      refine Harmless.drop ?_
      unfold Build.invoke
      refine Harmless.get ?_
      dsimp only
      split
      · exact harmless_throw _
      · exact harmless_of_ok (a := g.size) rfl
  | span callback =>
      refine Harmless.drop ?_
      unfold Build.span
      refine Harmless.get ?_
      dsimp only
      split
      · exact harmless_throw _
      · exact harmless_of_ok (a := g.spans.size) rfl
  | property type name => exact (makes_property type name g).harmless
  | matchKey id key next =>
      exact (makes_addMatchEdge hv.2 key false
        (fun h => absurd h Bool.false_ne_true)).harmless
  | peek id byte next =>
      exact (makes_addMatchEdge hv.2 [byte] true (fun _ => rfl)).harmless
  | select id key value next =>
      exact (makes_addMatchEdge hv.2 key false
        (fun h => absurd h Bool.false_ne_true)).harmless
  | on id code next => exact (makes_on hv.2 code).harmless
  | otherwise id next => exact (makes_setOtherwise hv.2 (Or.inl rfl)).harmless
  | skipTo id next => exact (makes_skipTo hv.2).harmless
  | transform id t => exact (makes_transform id t g).harmless
  | spanStart span next =>
      refine Harmless.drop ?_
      cases next with
      | none => exact harmless_of_ok (a := g.size) rfl
      | some next =>
          have htakes : ¬ g.TakesValue next := fun h => straight _ (.start h)
          obtain ⟨id, hrun⟩ := (SpanCall.start.run hg (hv.2 next rfl)).2 htakes
          exact harmless_of_ok hrun
  | spanEnd span next =>
      refine Harmless.drop ?_
      cases next with
      | none => exact harmless_of_ok (a := g.size) rfl
      | some next =>
          have htakes : ¬ g.TakesValue next := fun h => straight _ (.finish h)
          obtain ⟨id, hrun⟩ :=
            (SpanCall.finish.run hg (hv.2 next rfl)).2 htakes
          exact harmless_of_ok hrun
  | _ => exact harmless_of_ok (a := ()) rfl

/-- Whatever was called before, a call that adds or changes one thing and fails
leaves the graph exactly as it was, unless it asks for a span node before a
code that takes a value. Such a call always fails, and has added that node,
without an edge and in no cache. -/
theorem Call.rejected_iff (hg : g.Built) (hv : call.Valid g)
    (single : call.Single) :
    (call.Fails g → (call.after g = g ↔ ∀ node, ¬ call.Strays g node))
      ∧ ∀ node, call.Strays g node →
          call.Fails g
              ∧ call.after g = { g with nodes := g.nodes.push node } := by
  have stray : ∀ node, call.Strays g node →
      call.Fails g ∧ call.after g = { g with nodes := g.nodes.push node } := by
    intro node hnode
    obtain ⟨cause, hrun⟩ := hnode.run hg hv
    refine ⟨⟨cause, ?_⟩, ?_⟩
    · rw [hrun]
    · rw [Call.after, Build.after, hrun]
  refine ⟨?_, stray⟩
  rintro ⟨cause, hfails⟩
  constructor
  · intro hsame node hnode
    exact push_ne g node ((stray node hnode).2.symm.trans hsame)
  · intro straight
    exact Call.harmless hg hv single straight cause hfails

/-- A code that takes a value, called at node 0, a match node and a span. -/
def valued : Graph :=
  replay [.externalCode "on_url" .span, .intrinsic (.store "method"),
    .span 0, .invoke 1,
    .node "url"] {}

theorem built_valued : valued.Built :=
  Graph.Built.new.replay (by decide +kernel)

/-- An edge without a value is refused before anything is changed, a span node
for the same target once the node is there. -/
theorem rejected_valued :
    (Call.otherwise 1 0).after valued = valued
      ∧ (Call.spanStart 0 (some 0)).Fails valued
      ∧ (Call.spanStart 0 (some 0)).after valued
        = { valued with
            nodes :=
              valued.nodes.push ⟨"span_start_on_url", .spanStart 0, [],
                  none⟩ } := by
  have takes : valued.TakesValue 0 := ⟨1, by decide +kernel, by decide +kernel⟩
  have known : (Call.otherwise 1 0).Valid valued
      ∧ (Call.spanStart 0 (some 0)).Valid valued := by
    decide +kernel
  have plain := (Call.rejected_iff built_valued known.1 trivial).1
    ⟨.invalidEdge "url" .valueMissing, rfl⟩
  have stray := (Call.rejected_iff built_valued known.2 trivial).2 _
    (.start takes)
  refine ⟨plain.mpr (fun _ h => nomatch h), stray.1, stray.2.trans ?_⟩
  rw [show valued.spanName 0 = "on_url" by decide +kernel]
  rfl

/-- The span node is left over: the call fails, and the graph has a node
more. -/
theorem rejected_adds :
    valued.Built ∧ (Call.spanStart 0 (some 0)).Valid valued
      ∧ (Call.spanStart 0 (some 0)).Single
      ∧ (Call.spanStart 0 (some 0)).Fails valued
      ∧ (Call.spanStart 0 (some 0)).after valued ≠ valued :=
  ⟨built_valued, by decide +kernel, trivial,
    ⟨.invalidEdge "span_start_on_url" .valueMissing, rfl⟩, by decide +kernel⟩

end Build

end Bytewise

/-
Graphs as the builder leaves them.

`Built` is the closure of the empty graph under builder calls with valid
handles, failed calls included. A call is a monadic program; what it can
do to a graph is said once, by `Change`: one constructor for each way in
which some call alters the graph, with everything the call has checked by
then as its premises. `Call.after_changes` cuts every call into changes,
so an invariant of built graphs is a case analysis over nine changes and
never opens a call again.
-/
import Mathlib.Logic.Relation
import Bytewise.Graph.Builder

namespace Bytewise

namespace Build

-- ============================================================ calls

/-- A builder call with its arguments. -/
inductive Call where
  | node (name : String)
  | setName (id : NodeId) (name : String)
  | error (code : Int32) (reason : String)
  | pause (code : Int32) (reason : String)
  | consume (field : String)
  | invoke (code : CodeRef)
  | externalCode (name : String) (signature : Signature)
  | intrinsic (kind : CodeKind)
  | span (callback : CodeRef)
  | property (type : FieldType) (name : String)
  | matchKey (id : NodeId) (key : List UInt8) (next : NodeId)
  | matchAny (id : NodeId) (keys : List (List UInt8)) (next : NodeId)
  | peek (id : NodeId) (byte : UInt8) (next : NodeId)
  | peekAny (id : NodeId) (bytes : List UInt8) (next : NodeId)
  | select (id : NodeId) (key : List UInt8) (value : Int64) (next : NodeId)
  | on (id : NodeId) (code : Int32) (next : NodeId)
  | otherwise (id next : NodeId)
  | skipTo (id next : NodeId)
  | transform (id : NodeId) (t : Transform)
  | spanStart (span : SpanId) (next : Option NodeId)
  | spanEnd (span : SpanId) (next : Option NodeId)
deriving DecidableEq, Repr

/-- The call as a program; what it answers is dropped. -/
def Call.perform : Call → Build Unit
  | .node name => do let _ ← Build.node name
  | .setName id name => Build.setName id name
  | .error code reason => do let _ ← Build.error code reason
  | .pause code reason => do let _ ← Build.pause code reason
  | .consume field => do let _ ← Build.consume field
  | .invoke code => do let _ ← Build.invoke code
  | .externalCode name signature => do
      let _ ← Build.externalCode name signature
  | .intrinsic kind => do let _ ← Build.intrinsic kind
  | .span callback => do let _ ← Build.span callback
  | .property type name => Build.property type name
  | .matchKey id key next => Build.matchKey id key next
  | .matchAny id keys next => Build.matchAny id keys next
  | .peek id byte next => Build.peek id byte next
  | .peekAny id bytes next => Build.peekAny id bytes next
  | .select id key value next => Build.select id key value next
  | .on id code next => Build.on id code next
  | .otherwise id next => Build.otherwise id next
  | .skipTo id next => Build.skipTo id next
  | .transform id t => Build.transform id t
  | .spanStart s next => do let _ ← Build.spanStart s next
  | .spanEnd s next => do let _ ← Build.spanEnd s next

/-- Every handle that the call is given comes from the graph, and an intrinsic
is one. -/
def Call.Valid (g : Graph) : Call → Prop
  | .node _ | .error .. | .pause .. | .consume _ | .externalCode ..
  | .property .. => True
  | .setName id _ | .transform id _ => id < g.size
  | .invoke code | .span code => code < g.codes.size
  | .intrinsic kind => kind.isExternal = false
  | .matchKey id _ next | .matchAny id _ next | .peek id _ next
  | .peekAny id _ next
  | .select id _ _ next | .on id _ next | .otherwise id next
  | .skipTo id next =>
      id < g.size ∧ next < g.size
  | .spanStart s next | .spanEnd s next =>
      s < g.spans.size ∧ ∀ target ∈ next, target < g.size

instance (g : Graph) (call : Call) : Decidable (call.Valid g) := by
  cases call <;> unfold Call.Valid <;> infer_instance

/-- The graph that a program leaves, whether it fails or not. -/
def after {α : Type} (x : Build α) (g : Graph) : Graph :=
  (x.run.run g).2

/-- The graph that a call leaves, whether it fails or not. -/
def Call.after (call : Call) (g : Graph) : Graph :=
  Build.after call.perform g

/-- The graph that a list of calls leaves. -/
def replay : List Call → Graph → Graph
  | [], g => g
  | call :: calls, g => replay calls (call.after g)

/-- Every call of a list is valid where it is made. -/
def AllValid : List Call → Graph → Prop
  | [], _ => True
  | call :: calls, g => call.Valid g ∧ AllValid calls (call.after g)

instance decidableAllValid : ∀ (calls : List Call) (g : Graph),
    Decidable (AllValid calls g)
  | [], _ => inferInstanceAs (Decidable True)
  | call :: calls, g =>
      have := decidableAllValid calls (call.after g)
      inferInstanceAs
        (Decidable (call.Valid g ∧ AllValid calls (call.after g)))

end Build

namespace Graph

/-- Graphs made by builder calls with valid handles. -/
inductive Built : Graph → Prop where
  | new : Built {}
  | call {g : Graph} (call : Build.Call) : Built g → call.Valid g →
      Built (call.after g)

/-- A list of valid calls makes a built graph. -/
theorem Built.replay {g : Graph} {calls : List Build.Call} (hg : g.Built)
    (hv : Build.AllValid calls g) : (Build.replay calls g).Built := by
  induction calls generalizing g with
  | nil => exact hg
  | cons call calls ih => exact ih (hg.call call hv.1) hv.2

-- ========================================================== changes

/-- The kinds that a new node may have: what it calls or spans is there. -/
def KindFits (g : Graph) : NodeKind → Prop
  | .invoke code => code < g.codes.size ∧ (g.code code).signature ≠ .span
  | .spanStart span | .spanEnd span => span < g.spans.size
  | _ => True

/-- The keyed edges that a node of a kind may have. -/
def EdgeFits (edge : Edge) : NodeKind → Prop
  | .dispatch _ =>
      ∃ bs, edge.key = some (.bytes bs) ∧ bs ≠ []
        ∧ (edge.noAdvance = true → bs.length = 1 ∧ edge.value = none)
  | .invoke _ =>
    (∃ code, edge.key = some (.code code)) ∧ edge.noAdvance = true
      ∧ edge.value = none
  | _ => False

/-- The otherwise edges that a node of a kind may have. -/
def OtherwiseFits (edge : Edge) (kind : NodeKind) : Prop :=
  edge.key = none ∧ edge.value = none
    ∧ match kind with
      | .error .. => False
      | .pause .. | .invoke _ | .consume _ => edge.noAdvance = true
      | _ => True

/-- The graph with an edge added to the keyed edges of `id`. -/
def addEdge (g : Graph) (id : NodeId) (edge : Edge) : Graph :=
  { g with nodes := g.nodes.modify id fun node => { node with
    edges := node.edges ++ [edge] } }

/-- The graph with the otherwise edge of `id` set. -/
def putOtherwise (g : Graph) (id : NodeId) (edge : Edge) : Graph :=
  { g with nodes := g.nodes.modify id fun node => { node with
    otherwise := some edge } }

/-- One way in which a builder call alters a graph, with what is checked before
it does. -/
inductive Change : Graph → Graph → Prop where
  | node {g : Graph} (name : String) {kind : NodeKind}
      (fits : g.KindFits kind) :
      Change g { g with nodes := g.nodes.push { name, kind } }
  | rename {g : Graph} (id : NodeId) (name : String) :
      Change g
        { g with nodes := g.nodes.modify id fun node => { node with name } }
  | transform {g : Graph} {id : NodeId} {old : Option Transform}
      (t : Transform)
      (kind : (g.node id).kind = .dispatch old) :
      Change g { g with
        nodes := g.nodes.modify id fun node =>
          { node with kind := .dispatch (some t) } }
  | code {g : Graph} (name : String) (kind : CodeKind) :
      Change g { g with codes := g.codes.push ⟨name, kind⟩ }
  | span {g : Graph} {callback : CodeRef} (known : callback < g.codes.size)
      (signature : (g.code callback).signature = .span) :
      Change g { g with spans := g.spans.push callback }
  | property {g : Graph} (type : FieldType) {name : String}
      (identifier : Text.isIdentifier name = true)
      (free : Build.reservedFields.contains name = false
        ∧ Build.spanFieldStem.toList.isPrefixOf name.toList = false)
      (fresh : ∀ p ∈ g.properties, p.name ≠ name) :
      Change g { g with properties := g.properties.push ⟨type, name⟩ }
  | edge {g : Graph} {id : NodeId} {edge : Edge} (known : edge.target < g.size)
      (fits : EdgeFits edge (g.node id).kind)
      (target : Build.targetFault? g (g.node edge.target).kind
        edge.value = none)
      (fresh : ∀ e ∈ (g.node id).edges, e.key ≠ edge.key) :
      Change g (g.addEdge id edge)
  | otherwise {g : Graph} {id : NodeId} {edge : Edge}
      (known : edge.target < g.size)
      (fits : OtherwiseFits edge (g.node id).kind)
      (target : Build.targetFault? g (g.node edge.target).kind
        edge.value = none)
      (fresh : (g.node id).otherwise = none) :
      Change g (g.putOtherwise id edge)
  | cacheStart {g : Graph} {id next : NodeId} {span : SpanId}
      (kind : (g.node id).kind = .spanStart span)
      (edge : (g.node id).otherwise = some ⟨none, next, true, none⟩) :
      Change g { g with spanStarts := ((span, next), id) :: g.spanStarts }
  | cacheEnd {g : Graph} {id next : NodeId} {span : SpanId}
      (kind : (g.node id).kind = .spanEnd span)
      (edge : (g.node id).otherwise = some ⟨none, next, true, none⟩) :
      Change g { g with spanEnds := ((span, next), id) :: g.spanEnds }

/-- Changes one after another. -/
def Changes : Graph → Graph → Prop :=
  Relation.ReflTransGen Change

/-- No change takes a node away. -/
theorem Change.size_le {g g' : Graph} (h : Change g g') :
    g.size ≤ g'.size := by
  cases h <;> simp [Graph.size, Graph.addEdge, Graph.putOtherwise]

theorem Changes.size_le {g g' : Graph} (h : Changes g g') :
    g.size ≤ g'.size := by
  induction h with
  | refl => exact Nat.le_refl _
  | tail _ h ih => exact Nat.le_trans ih h.size_le

end Graph

namespace Build

open Bytewise.Graph (Change Changes EdgeFits OtherwiseFits)

-- ============================================================= runs

/-- An answer leaves the graph as it is. -/
theorem run_pure {α : Type} (a : α) (g : Graph) :
    (pure a : Build α).run.run g = (.ok a, g) := rfl

/-- Looking at the graph answers it. -/
theorem run_get (g : Graph) : (get : Build Graph).run.run g = (.ok g, g) := rfl

/-- A sequence runs one step after another, until one fails. -/
theorem run_bind {α β : Type} (x : Build α) (f : α → Build β) (g : Graph) :
    (x >>= f).run.run g = match x.run.run g with
      | (.ok a, g') => (f a).run.run g'
      | (.error cause, g') => (.error cause, g') := by
  simp only [ExceptT.run_bind, StateT.run_bind]
  rcases x.run.run g with ⟨r | r, g'⟩ <;> rfl

/-- A refusal fails and leaves the graph as it is. -/
theorem run_refuse {α : Type} (id : NodeId) (fault : EdgeFault) (g : Graph) :
    (refuse id fault : Build α).run.run g
    = (.error (.invalidEdge (g.node id).name fault), g) := rfl

/-- The check of a target leaves the graph as it is. -/
theorem run_checkTarget (id : NodeId) (edge : Edge) (g : Graph) :
    (checkTarget id edge).run.run g
      = match targetFault? g (g.node edge.target).kind edge.value with
        | some fault => (.error (.invalidEdge (g.node id).name fault), g)
        | none => (.ok (), g) := by
  unfold checkTarget
  rw [run_bind, run_get]
  cases h : targetFault? g (g.node edge.target).kind edge.value with
  | some fault => simp only [h, run_refuse]
  | none => simp only [h, run_pure]

/-- A program that changes `g` into `g'`, or fails and leaves `g` alone. -/
def Makes (x : Build Unit) (g g' : Graph) : Prop :=
  (x.run.run g = (.ok (), g') ∧ Change g g')
    ∨ ∃ cause, x.run.run g = (.error cause, g)

/-- What comes after a refusal does not matter. -/
theorem makes_refuse_bind (id : NodeId) (fault : EdgeFault)
    (k : Unit → Build Unit)
    (g g' : Graph) : Makes (refuse id fault >>= k) g g' :=
  Or.inr ⟨_, rfl⟩

/-- An edge that fits its node is added if its target takes it and its key is
new. -/
theorem makes_insertEdge {g : Graph} {id : NodeId} {edge : Edge}
    (known : edge.target < g.size) (fits : EdgeFits edge (g.node id).kind) :
    Makes (insertEdge id edge) g (g.addEdge id edge) := by
  unfold insertEdge Makes
  rw [run_bind, run_checkTarget]
  cases htarget : targetFault? g (g.node edge.target).kind edge.value with
  | some fault => exact Or.inr ⟨_, rfl⟩
  | none =>
      dsimp only
      rw [run_bind, run_get]
      dsimp only
      by_cases hdup : (g.node id).edges.any (·.key == edge.key) = true
      · rw [if_pos hdup]
        exact Or.inr ⟨_, rfl⟩
      · rw [if_neg hdup]
        refine Or.inl ⟨rfl, .edge known fits htarget fun e he hk => hdup ?_⟩
        exact List.any_eq_true.mpr ⟨e, he, beq_iff_eq.mpr hk⟩

/-- A keyed edge of bytes is added with all that its node and its target ask of
it; else nothing happens. -/
theorem makes_addMatchEdge {g : Graph} {id next : NodeId}
    (known : next < g.size) (key : List UInt8) (noAdvance : Bool)
    {value : Option Int64} (plain : noAdvance = true → value = none) :
    Makes (addMatchEdge id key next noAdvance value) g
      (g.addEdge id ⟨some (.bytes key), next, noAdvance, value⟩) := by
  unfold addMatchEdge Makes
  rw [run_bind, run_get]
  dsimp only
  rw [← Makes]
  split
  · rename_i t hkind
    split
    · exact makes_refuse_bind ..
    · rename_i hempty
      split
      · exact makes_refuse_bind ..
      · rename_i hwide
        refine makes_insertEdge known ?_
        rw [hkind]
        refine ⟨key, rfl, by simpa using hempty, fun hna => ⟨?_, plain hna⟩⟩
        have hna' : noAdvance = true := hna
        simpa [hna'] using hwide
  · exact makes_refuse_bind ..

/-- An otherwise edge is set with all that its node and its target ask of it;
else nothing happens. -/
theorem makes_setOtherwise {g : Graph} {id next : NodeId}
    (known : next < g.size) {noAdvance : Bool}
    (stays : noAdvance = true
      ∨ OtherwiseFits ⟨none, next, noAdvance, none⟩ (g.node id).kind) :
    Makes (setOtherwise id next noAdvance) g
      (g.putOtherwise id ⟨none, next, noAdvance, none⟩) := by
  unfold setOtherwise Makes
  rw [run_bind, run_get]
  dsimp only
  rw [← Makes]
  split
  · exact makes_refuse_bind ..
  · rename_i herror
    split
    · exact makes_refuse_bind ..
    · rename_i hset
      unfold Makes
      rw [run_bind, run_checkTarget]
      cases htarget : targetFault? g (g.node next).kind none with
      | some fault => exact Or.inr ⟨_, rfl⟩
      | none =>
          refine Or.inl
            ⟨rfl, .otherwise known ?_ htarget (by simpa using hset)⟩
          rcases stays with rfl | hfits
          · refine ⟨rfl, rfl, ?_⟩
            cases hkind : (g.node id).kind with
            | error code reason => exact herror _ _ hkind
            | _ => trivial
          · exact hfits

/-- An edge for a return code is added with all that its node and its target
ask of it; else nothing happens. -/
theorem makes_on {g : Graph} {id next : NodeId} (known : next < g.size)
    (code : Int32) :
    Makes (on id code next) g
        (g.addEdge id ⟨some (.code code), next, true, none⟩) := by
  unfold on Makes
  rw [run_bind, run_get]
  dsimp only
  rw [← Makes]
  split
  · rename_i hkind
    refine makes_insertEdge known ?_
    rw [hkind]
    exact ⟨⟨code, rfl⟩, rfl, rfl⟩
  · exact makes_refuse_bind ..

/-- An otherwise edge that consumes is set where one may be, else nothing
happens. -/
theorem makes_skipTo {g : Graph} {id next : NodeId} (known : next < g.size) :
    Makes (skipTo id next) g
        (g.putOtherwise id ⟨none, next, false, none⟩) := by
  unfold skipTo Makes
  rw [run_bind, run_get]
  dsimp only
  rw [← Makes]
  split
  · exact Or.inr ⟨_, rfl⟩
  · exact Or.inr ⟨_, rfl⟩
  · exact Or.inr ⟨_, rfl⟩
  · rename_i hpause hinvoke hconsume
    by_cases herror : ∃ code reason, (g.node id).kind = .error code reason
    · obtain ⟨code, reason, hkind⟩ := herror
      refine Or.inr ⟨.invalidEdge (g.node id).name .edgeFromError, ?_⟩
      rw [setOtherwise, run_bind, run_get]
      simp only [hkind]
      rfl
    · refine makes_setOtherwise known (Or.inr ⟨rfl, rfl, ?_⟩)
      cases hkind : (g.node id).kind with
      | error code reason => exact herror ⟨_, _, hkind⟩
      | pause code reason => exact (hpause _ _ hkind).elim
      | invoke code => exact (hinvoke _ hkind).elim
      | consume field => exact (hconsume _ hkind).elim
      | _ => trivial

/-- A match node gets its transform; at other nodes nothing happens. -/
theorem makes_transform (id : NodeId) (t : Transform) (g : Graph) :
    Makes (transform id t) g { g with
      nodes := g.nodes.modify id fun node =>
          { node with kind := .dispatch (some t) } } := by
  unfold transform Makes
  rw [run_bind, run_get]
  dsimp only
  split
  · rename_i hkind
    exact Or.inl ⟨rfl, .transform t hkind⟩
  · exact Or.inr ⟨_, rfl⟩

/-- A property is declared if its name can be used and is new; else nothing
happens. -/
theorem makes_property (type : FieldType) (name : String) (g : Graph) :
    Makes (property type name) g
        { g with properties := g.properties.push ⟨type, name⟩ } := by
  unfold property Makes
  rw [run_bind, run_get]
  dsimp only
  split
  · exact Or.inr ⟨_, rfl⟩
  · rename_i hidentifier
    split
    · exact Or.inr ⟨_, rfl⟩
    · rename_i hreserved
      split
      · exact Or.inr ⟨_, rfl⟩
      · rename_i hfresh
        refine Or.inl ⟨rfl, .property type (by simpa using hidentifier) ?_ ?_⟩
        · simpa only [Bool.or_eq_true, not_or, Bool.not_eq_true]
            using hreserved
        · intro p hp hname
          exact hfresh (Array.any_eq_true'.mpr ⟨p, hp, beq_iff_eq.mpr hname⟩)

/-- A program that changes nothing when it fails leads where its change
does. -/
theorem Makes.changes {x : Build Unit} {g g' : Graph} (h : Makes x g g') :
    Changes g (after x g) := by
  unfold after
  rcases h with ⟨hrun, hchange⟩ | ⟨cause, hrun⟩
  · rw [hrun]
    exact .single hchange
  · rw [hrun]
    exact .refl

/-- Dropping the answer changes nothing else. -/
theorem after_drop {α : Type} (x : Build α) (g : Graph) :
    after (do let _ ← x) g = after x g := by
  unfold after
  rw [run_bind]
  rcases x.run.run g with ⟨r | r, g'⟩ <;> rfl

-- ==================================================== calls as changes

/-- A list of programs stops at its first failure, so it leads where a front
part of it leads. -/
theorem changes_forM {α : Type} {f : α → Build Unit} {xs : List α} {g : Graph}
    (h : ∀ x, ∀ g', Changes g g' → Changes g' (after (f x) g')) :
    Changes g (after (xs.forM f) g) := by
  induction xs generalizing g with
  | nil => exact .refl
  | cons x xs ih =>
      show Changes g (after (f x >>= fun _ => xs.forM f) g)
      have first := h x g .refl
      unfold after at first ⊢
      rw [run_bind]
      rcases hrun : (f x).run.run g with ⟨r | r, g'⟩
      · rw [hrun] at first
        exact first
      · rw [hrun] at first
        exact first.trans (ih fun y g'' hg => h y g'' (first.trans hg))


/-- A node that is pushed comes last. -/
theorem run_push (name : String) (kind : NodeKind) (g : Graph) :
    (push name kind).run.run g
        = (.ok g.size, { g with nodes := g.nodes.push { name, kind } }) :=
  rfl

/-- The node that a push appends. -/
theorem node_push (g : Graph) (node : Node) :
    ({ g with nodes := g.nodes.push node } : Graph).node g.size = node := by
  simp [Graph.node, Graph.size]

/-- The otherwise edge that a node has just got. -/
theorem otherwise_putOtherwise {g : Graph} {id : NodeId} (hid : id < g.size)
    (edge : Edge) :
    ((g.putOtherwise id edge).node id).otherwise = some edge
      ∧ ((g.putOtherwise id edge).node id).kind = (g.node id).kind := by
  have hid' : id < g.nodes.size := hid
  simp [Graph.node, Graph.putOtherwise, hid', Array.getD, Array.getElem_modify]

/-- A span node with a target: a new node, its otherwise edge and its entry in
a cache, as far as the target allows. -/
theorem changes_spanNode {g : Graph} {name : String} {kind : NodeKind}
    {next : NodeId} {cache : NodeId → Graph → Graph} (fits : g.KindFits kind)
    (known : next < g.size)
    (cached : ∀ g' id, (g'.node id).kind = kind →
      (g'.node id).otherwise = some ⟨none, next, true, none⟩ →
      Change g' (cache id g')) :
    Changes g (after (do
      let id ← push name kind
      Build.otherwise id next
      modify (cache id)
      return id) g) := by
  have hnode : Change g { g with nodes := g.nodes.push { name, kind } } :=
    .node name fits
  unfold after
  rw [run_bind, run_push]
  dsimp only
  rw [run_bind]
  rcases @makes_setOtherwise _ g.size next
      (Nat.lt_of_lt_of_le known hnode.size_le) true
      (Or.inl rfl) with ⟨hrun, hchange⟩ | ⟨cause, hrun⟩
  · have hid : g.size
        < ({ g with nodes := g.nodes.push { name, kind } } : Graph).size := by
      simp [Graph.size]
    obtain ⟨hedge, hkind⟩ :=
      otherwise_putOtherwise hid ⟨none, next, true, none⟩
    rw [node_push] at hkind
    rw [Build.otherwise, hrun]
    exact ((Relation.ReflTransGen.single hnode).tail hchange).tail
      (cached _ _ hkind hedge)
  · rw [Build.otherwise, hrun]
    exact .single hnode

/-- Looking at the graph makes no difference to it. -/
theorem after_get {α : Type} (f : Graph → Build α) (g : Graph) :
    after (get >>= f) g = after (f g) g := rfl

/-- Every builder call with valid handles is made of changes. -/
theorem Call.after_changes {g : Graph} {call : Call} (hv : call.Valid g) :
    Changes g (call.after g) := by
  unfold Call.after
  cases call with
  | node name =>
      rw [Call.perform, after_drop]
      exact .single (.node name trivial)
  | setName id name => exact .single (.rename id name)
  | error code reason =>
      rw [Call.perform, after_drop]
      exact .single (.node _ trivial)
  | pause code reason => 
      rw [Call.perform, after_drop]
      exact .single (.node _ trivial)
  | consume field => 
      rw [Call.perform, after_drop]
      exact .single (.node _ trivial)
  | invoke code => 
      rw [Call.perform, after_drop, Build.invoke]
      rw [after_get]
      dsimp only
      split
      · exact .refl
      · rename_i hspan
        exact .single (.node _ ⟨hv, by simpa using hspan⟩)
  | externalCode name signature => 
      rw [Call.perform, after_drop]
      exact .single (.code _ _)
  | intrinsic kind =>
      rw [Call.perform, after_drop]
      exact .single (.code _ _)
  | span callback =>
      rw [Call.perform, after_drop, Build.span]
      rw [after_get]
      dsimp only
      split
      · exact .refl
      · rename_i hspan
        exact .single (.span hv (by simpa using hspan))
  | property type name => exact (makes_property type name g).changes
  | matchKey id key next =>
      exact (makes_addMatchEdge hv.2 key false
        (fun h => absurd h Bool.false_ne_true)).changes
  | matchAny id keys next =>
      refine changes_forM fun key g' hg => ?_
      exact (makes_addMatchEdge (Nat.lt_of_lt_of_le hv.2 hg.size_le) key false
        (fun h => absurd h Bool.false_ne_true)).changes
  | peek id byte next =>
      exact (makes_addMatchEdge hv.2 [byte] true (fun _ => rfl)).changes
  | peekAny id bytes next =>
      refine changes_forM fun byte g' hg => ?_
      exact (makes_addMatchEdge (Nat.lt_of_lt_of_le hv.2 hg.size_le)
        [byte] true (fun _ => rfl)).changes
  | select id key value next =>
      exact (makes_addMatchEdge hv.2 key false
        (fun h => absurd h Bool.false_ne_true)).changes
  | on id code next => exact (makes_on hv.2 code).changes
  | otherwise id next => exact (makes_setOtherwise hv.2 (Or.inl rfl)).changes
  | skipTo id next => exact (makes_skipTo hv.2).changes
  | transform id t => exact (makes_transform id t g).changes
  | spanStart span next =>
      rw [Call.perform, after_drop, Build.spanStart]
      rw [after_get]
      cases next with
      | none => exact .single (.node _ hv.1)
      | some next =>
          dsimp only
          split
          · exact .refl
          · exact changes_spanNode hv.1 (hv.2 next rfl) fun _ _ hkind hedge =>
              .cacheStart hkind hedge
  | spanEnd span next =>
      rw [Call.perform, after_drop, Build.spanEnd]
      rw [after_get]
      cases next with
      | none => exact .single (.node _ hv.1)
      | some next =>
          dsimp only
          split
          · exact .refl
          · exact changes_spanNode hv.1 (hv.2 next rfl) fun _ _ hkind hedge =>
              .cacheEnd hkind hedge

end Build

namespace Graph

/-- A built graph is what changes make of the empty one. -/
theorem Built.changes {g : Graph} (h : g.Built) : Changes {} g := by
  induction h with
  | new => exact .refl
  | call call _ hv ih => exact ih.trans (Build.Call.after_changes hv)

/-- What holds of the empty graph and survives every change holds of every
built graph. -/
theorem Built.induction {P : Graph → Prop} (new : P {})
    (change : ∀ g g', Change g g' → P g → P g') {g : Graph} (h : g.Built) :
    P g := by
  have hchanges := h.changes
  clear h
  induction hchanges with
  | refl => exact new
  | tail _ hstep ih => exact change _ _ hstep ih

end Graph

end Bytewise

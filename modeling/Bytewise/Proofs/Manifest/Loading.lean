/-
What the graph of a manifest is made of.

Declarations are numbered in their order, and whatever refers to one by
name gets its number. So the graph of a manifest can be read off it, code
by code, span by span and node by node (`Describes`). Loading is followed
call by call: `Loads` says what holds if a program answers. All nodes are
made before any has an edge, so in between a graph is a list of nodes that
are `Whole` and, behind them, of nodes that are still `Bare`.
-/
import Mathlib.Data.List.Nodup
import Bytewise.Manifest.Graph
import Bytewise.Proofs.List
import Bytewise.Proofs.Graph.Sound

namespace Bytewise

/-- Asked for no target, a span start is one more node. -/
theorem Build.run_spanStart (span : SpanId) (g : Graph) :
    (Build.spanStart span none).run.run g = (.ok g.size, { g with
      nodes :=
        g.nodes.push ⟨"span_start_" ++ g.spanName span, .spanStart span, [],
            none⟩ }) :=
  rfl

theorem Build.run_spanEnd (span : SpanId) (g : Graph) :
    (Build.spanEnd span none).run.run g = (.ok g.size, { g with
      nodes :=
        g.nodes.push ⟨"span_end_" ++ g.spanName span, .spanEnd span, [],
            none⟩ }) :=
  rfl

namespace Manifest

-- =============================================================== names

/-- Names with their numbers, the last first. -/
def numbered (names : List String) : Names Nat :=
  names.zipIdx.reverse

section

variable {names : List String} {name : String} {i : Nat}

/-- The last of some names gets the next number. -/
theorem numbered_append (names : List String) (name : String) :
    numbered (names ++ [name]) = (name, names.length) :: numbered names := by
  unfold numbered
  rw [List.zipIdx_append, List.reverse_append, List.zipIdx_singleton,
    Nat.zero_add]
  rfl

/-- A name that is not listed has no number. -/
theorem lookup_numbered_none :
    (numbered names).lookup name = none ↔ name ∉ names := by
  rw [List.lookup_eq_none_iff]
  unfold numbered
  constructor
  · intro h hmem
    obtain ⟨i, hi⟩ := List.mem_iff_getElem?.mp hmem
    have hzip : (name, i) ∈ names.zipIdx.reverse :=
      List.mem_reverse.mpr (List.mem_zipIdx_iff_getElem?.mpr hi)
    simpa using h _ hzip
  · intro h entry hentry
    rw [bne_iff_ne]
    rintro rfl
    exact h
      (List.mem_of_getElem?
      (List.mem_zipIdx_iff_getElem?.mp (List.mem_reverse.mp hentry)))

/-- A name has the number of the place where it is. -/
theorem getElem?_of_lookup (h : (numbered names).lookup name = some i) :
    names[i]? = some name := by
  obtain ⟨front, back, happend, _⟩ := List.lookup_eq_some_iff.mp h
  have hmem : (name, i) ∈ numbered names := by
    rw [happend]
    exact List.mem_append_right _ List.mem_cons_self
  exact List.mem_zipIdx_iff_getElem?.mp (List.mem_reverse.mp hmem)

/-- A name that is new may be put to names that are distinct. -/
theorem nodup_of_new (hnodup : names.Nodup)
    (hnew : (numbered names).lookup name = none) :
    (names ++ [name]).Nodup :=
  List.nodup_append.mpr
      ⟨hnodup, List.nodup_singleton name, fun _ hx _ hy hxy =>
    lookup_numbered_none.mp hnew (List.mem_singleton.mp hy ▸ hxy ▸ hx)⟩

/-- A name has the number of its place. -/
theorem lookup_numbered (hnodup : names.Nodup) :
    (numbered names).lookup name = some i ↔ names[i]? = some name := by
  refine ⟨getElem?_of_lookup, fun h => ?_⟩
  cases hlookup : (numbered names).lookup name with
  | none =>
      exact absurd (List.mem_of_getElem? h) (lookup_numbered_none.mp hlookup)
  | some j =>
      have hj := getElem?_of_lookup hlookup
      rw [(List.getElem?_inj (List.getElem?_eq_some_iff.mp h).1 hnodup).mp
        (h.trans hj.symm)]

/-- Numbers stay below the count of the names. -/
theorem lt_of_lookup (h : (numbered names).lookup name = some i) :
    i < names.length :=
  (List.getElem?_eq_some_iff.mp (getElem?_of_lookup h)).1

end

-- ======================================================== declarations

/-- The code that a declaration declares. -/
def CodeDecl.code (decl : CodeDecl) : Code :=
  match decl.kind with
  | .external signature => ⟨decl.name, .external signature⟩
  | kind => ⟨Code.intrinsicName kind, kind⟩

/-- What a declared node does, once names are looked up. -/
def NodeDeclKind.nodeKind? (codes : Names CodeRef) (spans : Names SpanId) :
    NodeDeclKind → Option NodeKind
  | .dispatch transform => some (.dispatch transform)
  | .error code reason => some (.error code reason)
  | .pause code reason => some (.pause code reason)
  | .consume field => some (.consume field)
  | .invoke code => (codes.lookup code).map .invoke
  | .spanStart span => (spans.lookup span).map .spanStart
  | .spanEnd span => (spans.lookup span).map .spanEnd

/-- A declared edge, once names are looked up. -/
def EdgeDecl.edge? (nodes : Names NodeId) (decl : EdgeDecl) : Option Edge := do
  let next ← nodes.lookup decl.next
  match decl.matchKey, decl.peek, decl.select, decl.on, decl.value with
  | some key, none, none, none, none =>
    some ⟨some (.bytes key.toBytes), next, false, none⟩
  | none, some key, none, none, none =>
    some ⟨some (.bytes key.toBytes), next, true, none⟩
  | none, none, some key, none, some value =>
    some ⟨some (.bytes key.toBytes), next, false, some value⟩
  | none, none, none, some code, none =>
    some ⟨some (.code code), next, true, none⟩
  | _, _, _, _, _ => none

/-- The otherwise edge of a declared node, if it has one, once names are looked
up. -/
def NodeDecl.otherwise? (nodes : Names NodeId) (decl : NodeDecl) :
    Option (Option Edge) :=
  match decl.otherwise, decl.skipTo with
  | some _, some _ => none
  | some next, none =>
    (nodes.lookup next).map fun target => some ⟨none, target, true, none⟩
  | none, some next =>
    (nodes.lookup next).map fun target => some ⟨none, target, false, none⟩
  | none, none => some none

/-- The node is what its declaration says, but has no edges. -/
structure Bare (codes : Names CodeRef) (spans : Names SpanId) (decl : NodeDecl)
    (node : Node) :
    Prop where
  name : node.name = decl.name
  kind : decl.kind.nodeKind? codes spans = some node.kind
  edges : node.edges = []
  otherwise : node.otherwise = none

/-- The node is what its declaration says. -/
structure Whole (codes : Names CodeRef) (spans : Names SpanId)
    (nodes : Names NodeId) (decl : NodeDecl) (node : Node) : Prop where
  name : node.name = decl.name
  kind : decl.kind.nodeKind? codes spans = some node.kind
  edges : List.Forall₂ (fun edgeDecl edge => EdgeDecl.edge? nodes edgeDecl
    = some edge) decl.edges
    node.edges
  otherwise : decl.otherwise? nodes = some node.otherwise

-- ============================================================ programs

variable {α β : Type} {g : Graph}

/-- If the program answers, this holds of what it answers and of the graph it
leaves. -/
def Loads (x : Load α) (g : Graph) (post : α → Graph → Prop) : Prop :=
  ∀ v g', x.run.run g = (.ok v, g') → post v g'

/-- Looking at the graph leaves it as it is. -/
private theorem load_get_bind (f : Graph → Load β) :
    (get >>= f).run.run g = (f g).run.run g :=
  rfl

namespace Loads

variable {post : β → Graph → Prop}

theorem pure {v : β} (h : post v g) : Loads (Pure.pure v) g post := by
  intro w g' hrun
  obtain ⟨hv, rfl⟩ := Prod.mk.inj hrun
  exact Except.ok.inj hv ▸ h

theorem throw (failure : Failure) :
    Loads (MonadExcept.throw failure : Load β) g post :=
  fun _ _ hrun => nomatch (Prod.mk.inj hrun).1

theorem bind {x : Load α} {f : α → Load β} {mid : α → Graph → Prop}
    (hx : Loads x g mid) (hf : ∀ v g', mid v g' → Loads (f v) g' post) :
    Loads (x >>= f) g post := by
  intro w g' hrun
  rw [ExceptT.run_bind, StateT.run_bind] at hrun
  rcases hfirst : x.run.run g with ⟨r | v, g₁⟩
  · rw [hfirst] at hrun
    cases hrun
  · rw [hfirst] at hrun
    exact hf v g₁ (hx v g₁ hfirst) w g' hrun

theorem mono {post' : β → Graph → Prop} {x : Load β} (h : Loads x g post)
    (himp : ∀ v g', post v g' → post' v g') : Loads x g post' :=
  fun v g' hrun => himp v g' (h v g' hrun)

/-- A name that is found answers what it stands for. -/
theorem lookup {names : Names β} {name : String} {category : Category}
    (h : ∀ a, names.lookup name = some a → post a g) :
    Loads (Manifest.lookup names name category) g post := by
  unfold Manifest.lookup
  cases hfound : names.lookup name with
  | none => exact .throw _
  | some a => exact .pure (h a hfound)

/-- Looking a name up comes before what is done with it. -/
theorem lookup_bind {names : Names α} {name : String} {category : Category}
    {f : α → Load β}
    (h : ∀ a, names.lookup name = some a → Loads (f a) g post) :
    Loads (Manifest.lookup names name category >>= f) g post := by
  have hlookup : Loads (Manifest.lookup names name category) g fun a g' =>
      names.lookup name = some a ∧ g' = g := .lookup fun a ha => ⟨ha, rfl⟩
  refine hlookup.bind fun a g' ha => ?_
  obtain ⟨ha, rfl⟩ := ha
  exact h a ha

theorem declare {names : Names α} {name : String} {a : α} {category : Category}
    {post : Names α → Graph → Prop}
    (h : names.lookup name = none → post ((name, a) :: names) g) :
    Loads (Manifest.declare names name a category) g post := by
  unfold Manifest.declare
  cases hfound : names.lookup name with
  | none => exact .pure (h hfound)
  | some b => exact .throw _

/-- A builder call that answers leaves the graph that it leaves. -/
theorem build {call : Build β}
    (h : ∀ v g', call.run.run g = (.ok v, g') → post v g') :
    Loads (Manifest.build call) g post := by
  intro w g' hrun
  unfold Manifest.build at hrun
  rw [load_get_bind] at hrun
  rcases hfirst : call.run.run g with ⟨cause | v, g₁⟩
  · have hfirst : call.run g = (.error cause, g₁) := hfirst
    rw [hfirst] at hrun
    cases hrun
  · have hfirst' : call.run g = (.ok v, g₁) := hfirst
    rw [hfirst'] at hrun
    obtain ⟨hv, rfl⟩ := Prod.mk.inj hrun
    obtain rfl := Except.ok.inj hv
    exact h v g₁ hfirst

/-- A call that changes the graph in one way, if it answers. -/
theorem makes {call : Build Unit} {g' : Graph} {post : Unit → Graph → Prop}
    (hmakes : Build.Makes call g g') (h : g.Change g' → post () g') :
    Loads (Manifest.build call) g post := by
  refine Loads.build fun v g₁ hrun => ?_
  rcases hmakes with ⟨hdone, hchange⟩ | ⟨cause, hfailed⟩
  · obtain ⟨_, rfl⟩ := Prod.mk.inj (hdone.symm.trans hrun)
    exact h hchange
  · cases hfailed.symm.trans hrun

/-- A call of the builder loads if it changes the graph as told. -/
theorem makes_bind {call : Build Unit} {g' : Graph} {f : Unit → Load β}
    (hmakes : Build.Makes call g g') (h : g.Change g' → Loads (f ()) g' post) :
    Loads (Manifest.build call >>= f) g post := by
  have hcall : Loads (Manifest.build call) g fun _ g₁ => g₁ = g'
      ∧ g.Change g' :=
    .makes hmakes fun hchange => ⟨rfl, hchange⟩
  refine hcall.bind fun _ g₁ h₁ => ?_
  obtain ⟨rfl, hchange⟩ := h₁
  exact h hchange

/-- Between declarations this is so: the names of those that are made are
numbered and distinct. -/
private theorem declarations_from {δ : Type} {called : δ → String}
    {f : Names Nat → δ → Load (Names Nat)} {I : List δ → Graph → Prop}
    (each : ∀ done x names g, I done g → Loads (f names x) g fun names' g' =>
      names.lookup (called x) = none
        ∧ names' = (called x, done.length) :: names
        ∧ I (done ++ [x]) g')
    (xs : List δ) {done : List δ} {g : Graph}
    (hnodup : (done.map called).Nodup) (h : I done g) :
    Loads (xs.foldlM f (numbered (done.map called))) g fun names g' =>
      names = numbered ((done ++ xs).map called)
        ∧ ((done ++ xs).map called).Nodup
        ∧ I (done ++ xs) g' := by
  induction xs generalizing done g with
  | nil => exact .pure (by rw [List.append_nil]; exact ⟨rfl, hnodup, h⟩)
  | cons x xs ih =>
      rw [List.foldlM_cons]
      refine (each done x _ g h).bind fun names g' hx => ?_
      obtain ⟨hnew, rfl, hx⟩ := hx
      have hmap : (done ++ [x]).map called = done.map called
          ++ [called x] := by
        rw [List.map_append, List.map_singleton]
      have hrest := ih (hmap ▸ nodup_of_new hnodup hnew) hx
      rwa [hmap, numbered_append, List.length_map, List.append_assoc] at hrest

/-- Declarations that are made one after the other, each with the next number,
have names that are numbered and distinct. -/
theorem declarations {δ : Type} {called : δ → String}
    {f : Names Nat → δ → Load (Names Nat)} (I : List δ → Graph → Prop)
    (each : ∀ done x names g, I done g → Loads (f names x) g fun names' g' =>
      names.lookup (called x) = none
        ∧ names' = (called x, done.length) :: names
        ∧ I (done ++ [x]) g')
    (xs : List δ) {g : Graph} (h : I [] g) :
    Loads (xs.foldlM f []) g fun names g' => names = numbered (xs.map called)
      ∧ (xs.map called).Nodup ∧ I xs g' :=
  @declarations_from δ called f I each xs [] g List.nodup_nil h

/-- Where the rest of a list is gone through, the invariant holds of all that
came before. -/
private theorem forM_from {f : α → Load Unit} {I : List α → Graph → Prop}
    {all : List α}
    (each : ∀ done x rest g, done ++ x :: rest = all → I done g →
      Loads (f x) g fun _ => I (done ++ [x]))
    (xs : List α) {done : List α} (hall : done ++ xs = all) (h : I done g) :
    Loads (xs.forM f) g fun _ => I all := by
  induction xs generalizing done g with
  | nil =>
      rw [List.append_nil] at hall
      exact .pure (hall ▸ h)
  | cons x xs ih =>
      refine (each done x xs g hall h).bind fun _ g' hs => ih ?_ hs
      rw [List.append_assoc]
      exact hall

/-- Going through a list keeps an invariant of the elements gone through. -/
theorem forM {f : α → Load Unit} (I : List α → Graph → Prop) {all : List α}
    (each : ∀ done x rest g, done ++ x :: rest = all → I done g →
      Loads (f x) g fun _ => I (done ++ [x]))
    (h : I [] g) : Loads (all.forM f) g fun _ => I all :=
  forM_from each all (List.nil_append all) h

end Loads

-- ============================================================== graphs

/-- The graph with these properties, codes, spans and nodes. -/
def listed (properties : List Property) (codes : List Code)
    (spans : List CodeRef) (nodes : List Node) : Graph where
  nodes := nodes.toArray
  codes := codes.toArray
  spans := spans.toArray
  properties := properties.toArray

section

variable {properties : List Property} {codes : List Code}
  {spans : List CodeRef} {nodes front back : List Node} {node : Node}

/-- A change in the place behind `front` reaches the node that stands there. -/
theorem modify_between (front back : List Node) (node : Node)
    (change : Node → Node) :
    (front ++ node :: back).modify front.length change = front ++ change node
        :: back := by
  induction front with
  | nil => rfl
  | cons first front ih =>
      rw [List.cons_append, List.length_cons, List.modify_succ_cons, ih]
      rfl

/-- A change at one node leaves those before and behind it alone. -/
theorem modify_listed (change : Node → Node) :
    { listed properties codes spans (front ++ node :: back) with
        nodes := (front ++ node :: back).toArray.modify front.length change }
      = listed properties codes spans (front ++ change node :: back) := by
  unfold listed
  rw [List.modify_toArray, modify_between]

/-- Places before, at and behind a node are nodes of the graph. -/
theorem lt_size {id : NodeId} (h : id < front.length + (back.length + 1)) :
    id < (listed properties codes spans (front ++ node :: back)).size := by
  unfold listed Graph.size
  rwa [List.size_toArray, List.length_append, List.length_cons]

end

-- ========================================================= properties

/-- The properties of a manifest are those of the graph, in order. -/
theorem properties_load (all : List Property) :
    Loads
      (all.forM fun property => Manifest.build
      (Build.property property.type property.name)) {}
      fun _ g => g = listed all [] [] [] ∧ g.Sound := by
  refine Loads.forM (fun done g => g = listed done [] [] [] ∧ g.Sound)
    (fun done property rest g _ h => ?_) ⟨rfl, Graph.Built.new.sound⟩
  obtain ⟨rfl, hsound⟩ := h
  refine Loads.makes (Build.makes_property property.type property.name _)
      fun hchange =>
    ⟨?_, hsound.change hchange⟩
  unfold listed
  rw [List.push_toArray]

-- =============================================================== codes

/-- A code that is declared is the next code of the graph. -/
theorem addCode_loads (decl : CodeDecl) {g : Graph} (hsound : g.Sound) :
    Loads (addCode decl) g fun ref g' => ref = g.codes.size
      ∧ g' = { g with codes := g.codes.push decl.code } ∧ g'.Sound := by
  have hpush : ∀ name kind, Loads (Manifest.build (Build.pushCode name kind)) g
      fun ref g' =>
      ref = g.codes.size ∧ g' = { g with codes := g.codes.push ⟨name, kind⟩ }
          ∧ g'.Sound := by
    intro name kind
    refine Loads.build fun ref g' hrun => ?_
    obtain ⟨href, rfl⟩ := Prod.mk.inj hrun
    obtain rfl := Except.ok.inj href
    exact ⟨rfl, rfl, hsound.change (.code name kind)⟩
  obtain ⟨name, kind⟩ := decl
  unfold addCode
  cases kind with
  | external signature =>
      dsimp only
      split
      · exact .throw _
      · exact hpush name (.external signature)
  | _ => exact hpush _ _

/-- The codes of a manifest are those of the graph, in order and under names of
their own. -/
theorem codes_load {properties : List Property} (all : List CodeDecl)
    (hsound : (listed properties [] [] []).Sound) :
    Loads (all.foldlM (fun names decl => do
        declare names decl.name (← addCode decl) .code) [])
          (listed properties [] [] [])
      fun names g => names = numbered (all.map (·.name))
        ∧ (all.map (·.name)).Nodup
        ∧ g = listed properties (all.map CodeDecl.code) [] [] ∧ g.Sound := by
  refine Loads.declarations
    (fun done g => g = listed properties (done.map CodeDecl.code) [] []
    ∧ g.Sound) (fun done decl names g h => ?_) all ⟨rfl, hsound⟩
  obtain ⟨rfl, hsound⟩ := h
  refine (addCode_loads decl hsound).bind fun ref g' h => ?_
  obtain ⟨rfl, rfl, hsound'⟩ := h
  refine .declare fun hnew => ⟨hnew, ?_, ?_, hsound'⟩
  · unfold listed
    rw [List.size_toArray, List.length_map]
  · unfold listed
    rw [List.push_toArray, List.map_append, List.map_singleton]

-- =============================================================== spans

/-- A span that is declared is the next span of the graph. -/
theorem span_loads {callback : CodeRef} {g : Graph} (hsound : g.Sound)
    (hknown : callback < g.codes.size) :
    Loads (Manifest.build (Build.span callback)) g fun span g' => span
      = g.spans.size
      ∧ g' = { g with spans := g.spans.push callback } ∧ g'.Sound := by
  refine Loads.build fun span g' hrun => ?_
  unfold Build.span at hrun
  rw [Build.run_bind, Build.run_get] at hrun
  dsimp only at hrun
  split at hrun
  · cases hrun
  · rename_i hsignature
    obtain ⟨hspan, rfl⟩ := Prod.mk.inj hrun
    obtain rfl := Except.ok.inj hspan
    exact ⟨rfl, rfl, hsound.change (.span hknown (by simpa using hsignature))⟩

/-- The spans of a manifest are those of the graph, in order, each with the
callback that its name stands for. -/
theorem spans_load {properties : List Property} {codes : List Code}
    (names : Names CodeRef)
    (hnames : ∀ name ref, names.lookup name = some ref → ref < codes.length)
    (all : List SpanDecl) (hsound : (listed properties codes [] []).Sound) :
    Loads (all.foldlM (fun spans decl => do
        let callback ← lookup names decl.callback .code
        declare spans decl.name (← Manifest.build (Build.span callback)) .span)
          [])
      (listed properties codes [] [])
      fun spans g => spans = numbered (all.map (·.name))
        ∧ (all.map (·.name)).Nodup
        ∧ ∃ refs, g = listed properties codes refs [] ∧ g.Sound
          ∧ List.Forall₂ (fun decl ref => names.lookup decl.callback
              = some ref) all refs := by
  refine Loads.declarations
      (fun done g => ∃ refs, g = listed properties codes refs [] ∧ g.Sound
      ∧ List.Forall₂ (fun decl ref => names.lookup decl.callback = some ref)
        done refs)
    (fun done decl spans g h => ?_) all ⟨[], rfl, hsound, .nil⟩
  obtain ⟨refs, rfl, hsound, hrefs⟩ := h
  refine Loads.lookup_bind fun callback hcallback => ?_
  refine (span_loads hsound (hnames _ _ hcallback)).bind fun span g' h => ?_
  obtain ⟨rfl, rfl, hsound'⟩ := h
  refine .declare fun hnew => ⟨hnew, ?_, refs ++ [callback], ?_, hsound',
    List.rel_append hrefs (.cons hcallback .nil)⟩
  · rw [hrefs.length_eq]
    rfl
  · unfold listed
    rw [List.push_toArray]

-- =============================================================== nodes

section

variable {codes : Names CodeRef} {spans : Names SpanId} {decl : NodeDecl}
  {g : Graph}

/-- The answer is a new node of this kind, which is the last. -/
def Pushed (g : Graph) (kind : NodeKind) (id : NodeId) (g' : Graph) : Prop :=
  id = g.size ∧ ∃ name, g' = { g with nodes := g.nodes.push { name, kind } }
    ∧ g'.Sound

/-- A call that makes one more node does so when a manifest is loaded. -/
theorem push_loads (hsound : g.Sound) {x : Build NodeId} (name : String)
    (kind : NodeKind)
    (hx : x.run.run g
      = (.ok g.size, { g with nodes := g.nodes.push { name, kind } }))
    (fits : g.KindFits kind) : Loads (Manifest.build x) g (Pushed g kind) := by
  refine Loads.build fun id g' hrun => ?_
  obtain ⟨hid, rfl⟩ := Prod.mk.inj (hx.symm.trans hrun)
  obtain rfl := Except.ok.inj hid
  exact ⟨rfl, name, rfl, hsound.change (.node name fits)⟩

/-- An invoke node is made for a code that is known. -/
theorem invoke_loads (hsound : g.Sound) {code : CodeRef}
    (hknown : code < g.codes.size) :
    Loads (Manifest.build (Build.invoke code)) g
        (Pushed g (.invoke code)) := by
  refine Loads.build fun id g' hrun => ?_
  unfold Build.invoke at hrun
  rw [Build.run_bind, Build.run_get] at hrun
  dsimp only at hrun
  split at hrun
  · cases hrun
  · rename_i hsignature
    obtain ⟨hid, rfl⟩ := Prod.mk.inj hrun
    obtain rfl := Except.ok.inj hid
    exact ⟨rfl, _, rfl,
      hsound.change (.node _ ⟨hknown, by simpa using hsignature⟩)⟩

/-- A node that is last may be changed as if it had been made that way. -/
theorem modify_pushed (node : Node) (change : Node → Node) :
    (g.nodes.push node).modify g.size change = g.nodes.push (change node) := by
  refine Array.ext ?_ fun i h _ => ?_
  · rw [Array.size_modify, Array.size_push, Array.size_push]
  · rw [Array.size_modify, Array.size_push] at h
    simp only [Array.getElem_modify, Array.getElem_push, Graph.size]
    grind

/-- A new match node gets its transform. -/
theorem transform_loads {id : NodeId} {g' : Graph}
    (hpushed : Pushed g (.dispatch none) id g') (t : Transform) :
    Loads (Manifest.build (Build.transform id t)) g' fun _ =>
        Pushed g (.dispatch (some t)) id := by
  obtain ⟨rfl, name, rfl, hsound⟩ := hpushed
  refine .makes (Build.makes_transform g.size t _) fun hchange =>
    ⟨rfl, name, ?_, hsound.change hchange⟩
  rw [modify_pushed]

/-- The answer is a new node that is last, and what its declaration says but
for its edges. -/
def Declared (codes : Names CodeRef) (spans : Names SpanId) (decl : NodeDecl)
    (g : Graph) (id : NodeId) (g' : Graph) : Prop :=
  id = g.size ∧ ∃ node, Bare codes spans decl node
    ∧ g' = { g with nodes := g.nodes.push node } ∧ g'.Sound

/-- A node of the declared kind has only to be renamed. -/
theorem rename_loads {kind : NodeKind}
    (hkind : decl.kind.nodeKind? codes spans = some kind) {id : NodeId}
    {g' : Graph} (hpushed : Pushed g kind id g') :
    Loads (do
      Manifest.build (Build.setName id decl.name)
      return id) g' (Declared codes spans decl g) := by
  obtain ⟨rfl, old, rfl, hsound⟩ := hpushed
  refine .makes_bind (Or.inl ⟨rfl, .rename g.size decl.name⟩) fun hchange =>
    .pure ⟨rfl, { name := decl.name, kind }, ⟨rfl, hkind, rfl, rfl⟩, ?_,
      hsound.change hchange⟩
  dsimp only
  rw [modify_pushed]

/-- A node that is declared is the next node of the graph, of the kind that the
declaration says and without edges. -/
theorem addNode_loads (hsound : g.Sound)
    (hcodes : ∀ name ref, codes.lookup name = some ref → ref < g.codes.size)
    (hspans : ∀ name span, spans.lookup name = some span →
      span < g.spans.size) :
    Loads (addNode codes spans decl) g (Declared codes spans decl g) := by
  obtain ⟨name, kind, edges, otherwise, skipTo⟩ := decl
  unfold addNode
  cases kind with
  | dispatch transform =>
      refine (push_loads hsound name (.dispatch none) rfl trivial).bind
        fun id g' h => ?_
      cases transform with
      | none => exact rename_loads rfl h
      | some t => exact (transform_loads h t).bind fun _ _ => rename_loads rfl
  | error code reason =>
      exact (push_loads hsound "error" (.error code reason) rfl trivial).bind
          fun _ _ =>
        rename_loads rfl
  | pause code reason =>
      exact (push_loads hsound "pause" (.pause code reason) rfl trivial).bind
          fun _ _ =>
        rename_loads rfl
  | consume field =>
      exact (push_loads hsound ("consume_" ++ field) (.consume field) rfl
          trivial).bind fun _ _ =>
        rename_loads rfl
  | invoke name =>
      refine .lookup_bind fun code hcode => ?_
      refine (invoke_loads hsound (hcodes _ _ hcode)).bind fun _ _ =>
        rename_loads ?_
      exact congrArg (Option.map NodeKind.invoke) hcode
  | spanStart name =>
      refine .lookup_bind fun span hspan => ?_
      have hpush := push_loads hsound ("span_start_" ++ g.spanName span)
        (.spanStart span)
        (Build.run_spanStart span g) (hspans _ _ hspan)
      refine hpush.bind fun _ _ => rename_loads ?_
      exact congrArg (Option.map NodeKind.spanStart) hspan
  | spanEnd name =>
      refine .lookup_bind fun span hspan => ?_
      have hpush := push_loads hsound ("span_end_" ++ g.spanName span)
        (.spanEnd span)
        (Build.run_spanEnd span g) (hspans _ _ hspan)
      refine hpush.bind fun _ _ => rename_loads ?_
      exact congrArg (Option.map NodeKind.spanEnd) hspan

end

section

variable {properties : List Property} {codes : List Code} {refs : List CodeRef}
  {codeIds : Names CodeRef} {spanIds : Names SpanId}

/-- The nodes of a manifest are those of the graph, in order and without edges
at first. -/
theorem nodes_load (hcodes : ∀ name ref, codeIds.lookup name = some ref →
    ref < codes.length)
    (hspans : ∀ name span, spanIds.lookup name = some span →
      span < refs.length)
    (all : List NodeDecl) (hsound : (listed properties codes refs []).Sound) :
    Loads (all.foldlM (fun nodes decl => do
        declare nodes decl.name (← addNode codeIds spanIds decl) .node) [])
      (listed properties codes refs [])
      fun nodes g => nodes = numbered (all.map (·.name))
        ∧ (all.map (·.name)).Nodup
        ∧ ∃ made, g = listed properties codes refs made ∧ g.Sound
          ∧ List.Forall₂ (Bare codeIds spanIds) all made := by
  refine Loads.declarations
      (fun done g => ∃ made, g = listed properties codes refs made ∧ g.Sound
      ∧ List.Forall₂ (Bare codeIds spanIds) done made)
    (fun done decl nodes g h => ?_) all ⟨[], rfl, hsound, .nil⟩
  obtain ⟨made, rfl, hsound, hmade⟩ := h
  refine (addNode_loads hsound hcodes hspans).bind fun id g' h => ?_
  obtain ⟨rfl, node, hbare, rfl, hsound'⟩ := h
  refine .declare fun hnew => ⟨hnew, ?_, made ++ [node], ?_, hsound',
    List.rel_append hmade (.cons hbare .nil)⟩
  · rw [hmade.length_eq]
    rfl
  · unfold listed
    rw [List.push_toArray]

-- =============================================================== edges

variable {nodeIds : Names NodeId} {front back : List Node} {node : Node}

/-- Between the others, the graph has a node like this. -/
def Between (properties : List Property) (codes : List Code)
    (refs : List CodeRef) (front back : List Node) (P : Node → Prop)
    (g : Graph) : Prop :=
  ∃ node, P node ∧ g = listed properties codes refs (front ++ node :: back)
    ∧ g.Sound

/-- What changes one node, if it answers, leaves the others alone. -/
theorem between_loads {P : Node → Prop} {call : Build Unit}
    {change : Node → Node}
    (hsound : (listed properties codes refs (front ++ node :: back)).Sound)
    (hmakes : Build.Makes call
      (listed properties codes refs (front ++ node :: back))
      { listed properties codes refs (front ++ node :: back) with
        nodes := (front ++ node :: back).toArray.modify front.length change })
    (h : P (change node)) :
    Loads (build call)
        (listed properties codes refs (front ++ node :: back)) fun _ =>
      Between properties codes refs front back P :=
  .makes hmakes fun hchange =>
    ⟨change node, h, modify_listed change, hsound.change hchange⟩

/-- The node has one more edge, which is what its declaration says. -/
def Grown (node : Node) (edge? : Option Edge) (made : Node) : Prop :=
  ∃ edge, edge? = some edge
    ∧ made = { node with edges := node.edges ++ [edge] }

/-- An edge with a key is added to the node in hand, and nothing else
changes. -/
theorem keyed_loads
    (hsound : (listed properties codes refs (front ++ node :: back)).Sound)
    {call : Build Unit} {edge : Edge} {edge? : Option Edge}
    (hmakes : Build.Makes call
      (listed properties codes refs (front ++ node :: back))
      ((listed properties codes refs (front ++ node :: back)).addEdge
        front.length edge))
    (hedge : edge? = some edge) :
    Loads (build call)
        (listed properties codes refs (front ++ node :: back)) fun _ =>
      Between properties codes refs front back (Grown node edge?) :=
  between_loads hsound hmakes ⟨edge, hedge, rfl⟩

theorem addEdge_loads
    (hsound : (listed properties codes refs (front ++ node :: back)).Sound)
    (hnodes : ∀ name id, nodeIds.lookup name = some id →
      id < front.length + (back.length + 1))
    (name : String) (decl : EdgeDecl) :
    Loads (addEdge nodeIds front.length name decl)
      (listed properties codes refs (front ++ node :: back)) fun _ =>
        Between properties codes refs front back
            (Grown node (decl.edge? nodeIds)) := by
  obtain ⟨matchKey, peek, select, value, on, next⟩ := decl
  unfold addEdge
  refine .lookup_bind fun target htarget => ?_
  have hknown : target
      < (listed properties codes refs (front ++ node :: back)).size :=
    lt_size (hnodes _ _ htarget)
  have hfound : ∀ f : NodeId → Option Edge, (nodeIds.lookup next >>= f)
      = f target := fun f => by
    rw [htarget]
    rfl
  dsimp only
  split
  · rename_i key
    exact keyed_loads hsound
      (Build.makes_addMatchEdge hknown key.toBytes false nofun) (hfound _)
  · rename_i key
    split
    · rename_i byte hbyte
      refine keyed_loads hsound
        (Build.makes_addMatchEdge hknown [byte] true fun _ => rfl) ?_
      rw [← hbyte]
      exact hfound _
    · exact .throw _
  · rename_i key value
    exact keyed_loads hsound
      (Build.makes_addMatchEdge hknown key.toBytes false nofun) (hfound _)
  · exact .throw _
  · rename_i code
    exact keyed_loads hsound (Build.makes_on hknown code) (hfound _)
  · exact .throw _

/-- The node has just these edges, which are what their declarations say. -/
def Edged (nodeIds : Names NodeId) (node : Node) (decls : List EdgeDecl)
    (made : Node) : Prop :=
  ∃ edges,
    List.Forall₂ (fun decl edge => EdgeDecl.edge? nodeIds decl = some edge)
    decls edges
    ∧ made = { node with edges }

/-- The edges of a declaration are added one after another, in order. -/
theorem edges_load
    (hsound : (listed properties codes refs (front ++ node :: back)).Sound)
    (hnodes : ∀ name id, nodeIds.lookup name = some id →
      id < front.length + (back.length + 1))
    (hbare : node.edges = []) (name : String) (decls : List EdgeDecl) :
    Loads (decls.forM (addEdge nodeIds front.length name))
      (listed properties codes refs (front ++ node :: back)) fun _ =>
        Between properties codes refs front back
            (Edged nodeIds node decls) := by
  refine Loads.forM (fun done => Between properties codes refs front back
    (Edged nodeIds node done))
    (fun done decl _ g _ h => ?_)
      ⟨node, ⟨[], .nil, by rw [← hbare]⟩, rfl, hsound⟩
  obtain ⟨_, ⟨edges, hedges, rfl⟩, rfl, hsound⟩ := h
  refine (addEdge_loads hsound hnodes name decl).mono fun _ _ hmade => ?_
  obtain ⟨_, ⟨edge, hedge, rfl⟩, rfl, hsound⟩ := hmade
  exact ⟨_, ⟨edges ++ [edge], List.rel_append hedges (.cons hedge .nil), rfl⟩,
    rfl, hsound⟩

/-- A node gets all that its declaration says: its edges, and where it goes on
otherwise. -/
theorem addEdges_loads {decl : NodeDecl}
    (hsound : (listed properties codes refs (front ++ node :: back)).Sound)
    (hnodes : ∀ name id, nodeIds.lookup name = some id →
      id < front.length + (back.length + 1))
    (hid : nodeIds.lookup decl.name = some front.length)
    (hbare : Bare codeIds spanIds decl node) :
    Loads (addEdges nodeIds decl)
        (listed properties codes refs (front ++ node :: back)) fun _ =>
      Between properties codes refs front back
          (Whole codeIds spanIds nodeIds decl) := by
  obtain ⟨name, kind, decls, otherwise, skipTo⟩ := decl
  refine .lookup_bind fun id hfound => ?_
  obtain rfl := Option.some.inj (hid.symm.trans hfound)
  refine (edges_load hsound hnodes hbare.edges name decls).bind
    fun _ g' h => ?_
  obtain ⟨_, ⟨edges, hedges, rfl⟩, rfl, hsound'⟩ := h
  dsimp only
  split
  · exact .throw _
  · refine .lookup_bind fun target htarget => ?_
    refine between_loads hsound'
      (Build.makes_setOtherwise (lt_size (hnodes _ _ htarget))
      (Or.inl rfl)) ?_
    exact ⟨hbare.name, hbare.kind, hedges, congrArg (Option.map _) htarget⟩
  · refine .lookup_bind fun target htarget => ?_
    refine between_loads hsound'
      (Build.makes_skipTo (lt_size (hnodes _ _ htarget))) ?_
    exact ⟨hbare.name, hbare.kind, hedges, congrArg (Option.map _) htarget⟩
  · exact .pure ⟨{ node with edges }, ⟨hbare.name, hbare.kind, hedges,
      congrArg some hbare.otherwise.symm⟩, rfl, hsound'⟩

/-- These declarations have their edges, and the nodes of all others are still
without. -/
def WiredUpTo (properties : List Property) (codes : List Code)
    (refs : List CodeRef) (codeIds : Names CodeRef) (spanIds : Names SpanId)
    (all done : List NodeDecl) (g : Graph) :
    Prop :=
  ∃ rest front back, all = done ++ rest
    ∧ List.Forall₂ (Whole codeIds spanIds (numbered (all.map (·.name))))
      done front
    ∧ List.Forall₂ (Bare codeIds spanIds) rest back
    ∧ g = listed properties codes refs (front ++ back) ∧ g.Sound

/-- All nodes get theirs, each in its turn. -/
theorem wiring_loads {all : List NodeDecl} (hnodup : (all.map (·.name)).Nodup)
    {made : List Node} (hmade : List.Forall₂ (Bare codeIds spanIds) all made)
    (hsound : (listed properties codes refs made).Sound) :
    Loads (all.forM (addEdges (numbered (all.map (·.name)))))
      (listed properties codes refs made)
      fun _ => WiredUpTo properties codes refs codeIds spanIds all all := by
  refine Loads.forM (WiredUpTo properties codes refs codeIds spanIds all)
    (fun done decl rest g hall h => ?_)
    ⟨all, [], made, rfl, .nil, hmade, rfl, hsound⟩
  obtain ⟨rest', front, back, hsplit, hfront, hback, rfl, hsound⟩ := h
  obtain rfl := List.append_cancel_left (hsplit.symm.trans hall.symm)
  -- the node of the next declaration is the first that is still bare
  cases hback with
  | @cons _ node _ back hbare hback =>
    have hlength : (all.map (·.name)).length = front.length
        + (back.length + 1) := by
      rw [hsplit, List.length_map, List.length_append, List.length_cons,
        hfront.length_eq,
        hback.length_eq]
    have hid : (numbered (all.map (·.name))).lookup decl.name
        = some front.length := by
      rw [lookup_numbered hnodup, List.getElem?_map, hsplit,
        ← hfront.length_eq,
        List.getElem?_append_right (Nat.le_refl _), Nat.sub_self]
      rfl
    refine (addEdges_loads hsound (fun name id h => hlength ▸ lt_of_lookup h)
      hid hbare).mono
      fun _ g' hmade => ?_
    obtain ⟨made, hwhole, rfl, hsound'⟩ := hmade
    refine ⟨rest, front ++ [made], back, ?_, List.rel_append hfront
      (.cons hwhole .nil), hback, ?_,
      hsound'⟩
    · rw [hsplit, List.append_assoc]
      rfl
    · rw [List.append_assoc]
      rfl

end

end Manifest

-- =========================================================== manifests

open Manifest

/-- The names of the codes, with their numbers. -/
abbrev Manifest.codeIds (m : Manifest) : Names CodeRef :=
  numbered (m.codes.map (·.name))

/-- The names of the spans, with their numbers. -/
abbrev Manifest.spanIds (m : Manifest) : Names SpanId :=
  numbered (m.spans.map (·.name))

/-- The names of the nodes, with their numbers. -/
abbrev Manifest.nodeIds (m : Manifest) : Names NodeId :=
  numbered (m.nodes.map (·.name))

/-- The graph is what the manifest says, with things numbered as they are
declared. -/
structure Manifest.Describes (m : Manifest) (g : Graph) (root : NodeId) :
    Prop where
  sound : g.Sound
  codeNames : (m.codes.map (·.name)).Nodup
  spanNames : (m.spans.map (·.name)).Nodup
  nodeNames : (m.nodes.map (·.name)).Nodup
  properties : g.properties.toList = m.properties
  codes : g.codes.toList = m.codes.map CodeDecl.code
  spans : List.Forall₂ (fun decl ref => m.codeIds.lookup decl.callback
    = some ref) m.spans
    g.spans.toList
  nodes : List.Forall₂ (Whole m.codeIds m.spanIds m.nodeIds) m.nodes
    g.nodes.toList
  root : m.nodeIds.lookup m.root = some root

/-- What loads is what the manifest says. -/
theorem Manifest.load_describes (m : Manifest) :
    Loads m.load {} fun root g => m.Describes g root := by
  unfold load
  refine (properties_load m.properties).bind fun _ g h => ?_
  obtain ⟨rfl, hsound⟩ := h
  refine (codes_load m.codes hsound).bind fun codeIds g h => ?_
  obtain ⟨rfl, hcodes, rfl, hsound⟩ := h
  have hrefs : ∀ name ref, m.codeIds.lookup name = some ref →
      ref < (m.codes.map CodeDecl.code).length := fun name ref href => by
    simpa using lt_of_lookup href
  refine (spans_load _ hrefs m.spans hsound).bind fun spanIds g h => ?_
  obtain ⟨rfl, hspans, refs, rfl, hsound, hcallbacks⟩ := h
  have hids : ∀ name span, m.spanIds.lookup name = some span →
      span < refs.length :=
    fun name span hspan => by
      have hlt := lt_of_lookup hspan
      rwa [List.length_map, hcallbacks.length_eq] at hlt
  refine (nodes_load hrefs hids m.nodes hsound).bind fun nodeIds g h => ?_
  obtain ⟨rfl, hnodes, made, rfl, hsound, hmade⟩ := h
  refine (wiring_loads hnodes hmade hsound).bind fun _ g h => ?_
  obtain ⟨rest, front, back, hsplit, hwhole, hback, rfl, hsound⟩ := h
  -- every declaration is wired, so none is left
  obtain rfl := List.self_eq_append_right.mp hsplit
  cases hback
  refine .lookup fun root hroot => ?_
  rw [List.append_nil] at hsound ⊢
  exact ⟨hsound, hcodes, hspans, hnodes, rfl, rfl, hcallbacks, hwhole, hroot⟩

/-- A manifest that loads describes the graph and the root that it is loaded
as. -/
theorem Manifest.describes_of_toGraph {m : Manifest} {loaded : Loaded}
    (h : m.toGraph = .ok loaded) : m.Describes loaded.graph loaded.root := by
  unfold toGraph at h
  split at h
  · rename_i root g hrun
    obtain rfl := Except.ok.inj h
    exact m.load_describes root g hrun
  · cases h

end Bytewise

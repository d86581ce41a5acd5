/-
What a manifest says, word by word.

A manifest refers to things by name, and its graph by number. `Faithful`
compares the two field by field, with no table in between: a name stands
for the place where it is declared. Names are distinct, so there is one
such place, and a manifest has one graph (`Faithful.unique`): whatever is
lost, merged, reordered or led astray would be another one.
-/
import Bytewise.Proofs.Manifest.Reordering

namespace Bytewise

namespace Manifest

-- =============================================================== names

/-- The thing that is declared under `name` is the one with the number `i`. -/
def Called (names : List String) (name : String) (i : Nat) : Prop :=
  names[i]? = some name

theorem Called.unique {names : List String} (hnames : names.Nodup)
    {name : String} {i j : Nat} (hi : Called names name i)
    (hj : Called names name j) : i = j :=
  (List.getElem?_inj (List.getElem?_eq_some_iff.mp hi).1 hnames).mp
    (hi.trans hj.symm)

/-- The names of the codes. -/
def codeNames (m : Manifest) : List String :=
  m.codes.map (·.name)

/-- The names of the spans. -/
def spanNames (m : Manifest) : List String :=
  m.spans.map (·.name)

/-- The names of the nodes. -/
def nodeNames (m : Manifest) : List String :=
  m.nodes.map (·.name)

-- ========================================================== statements

/-- A node does what is declared, with the code or the span of the declared
name. -/
inductive NodeDeclKind.Faithful (m : Manifest) :
    NodeDeclKind → NodeKind → Prop where
  | dispatch (transform : Option Transform) :
      Faithful m (.dispatch transform) (.dispatch transform)
  | error (code : Int32) (reason : String) : Faithful m (.error code reason)
      (.error code reason)
  | pause (code : Int32) (reason : String) : Faithful m (.pause code reason)
      (.pause code reason)
  | consume (field : String) : Faithful m (.consume field) (.consume field)
  | invoke {name : String} {code : CodeRef}
      (declared : Called m.codeNames name code) :
      Faithful m (.invoke name) (.invoke code)
  | spanStart {name : String} {span : SpanId}
      (declared : Called m.spanNames name span) :
      Faithful m (.spanStart name) (.spanStart span)
  | spanEnd {name : String} {span : SpanId}
      (declared : Called m.spanNames name span) :
      Faithful m (.spanEnd name) (.spanEnd span)

/-- An edge is what is declared. -/
structure EdgeDecl.Faithful (m : Manifest) (decl : EdgeDecl) (edge : Edge) :
    Prop where
  /-- Just one of the four ways to say when the edge applies is used. -/
  single : [decl.matchKey.isSome, decl.peek.isSome, decl.select.isSome,
    decl.on.isSome].count true
    = 1
  bytes : ∀ key, decl.matchKey = some key ∨ decl.peek = some key
    ∨ decl.select = some key →
    edge.key = some (.bytes key.toBytes)
  returned : ∀ code, decl.on = some code → edge.key = some (.code code)
  stays : edge.noAdvance = true ↔ decl.peek.isSome = true
    ∨ decl.on.isSome = true
  value : edge.value = decl.value
  selects : edge.value.isSome = true ↔ decl.select.isSome = true
  target : Called m.nodeNames decl.next edge.target

/-- A node is what is declared, and has just the declared edges. -/
structure NodeDecl.Faithful (m : Manifest) (decl : NodeDecl) (node : Node) :
    Prop where
  name : node.name = decl.name
  kind : decl.kind.Faithful m node.kind
  edges : List.Forall₂ (EdgeDecl.Faithful m) decl.edges node.edges
  present : node.otherwise.isSome = true ↔ decl.otherwise.isSome = true
    ∨ decl.skipTo.isSome = true
  stays : ∀ next, decl.otherwise = some next →
    ∃ target, Called m.nodeNames next target
    ∧ node.otherwise = some ⟨none, target, true, none⟩
  skips : ∀ next, decl.skipTo = some next →
    ∃ target, Called m.nodeNames next target
    ∧ node.otherwise = some ⟨none, target, false, none⟩

/-- A graph is what a manifest declares: as many properties, codes, spans and
nodes in the same order, each of them what its declaration says. -/
structure Faithful (m : Manifest) (g : Graph) (root : NodeId) : Prop where
  distinctCodes : m.codeNames.Nodup
  distinctSpans : m.spanNames.Nodup
  distinctNodes : m.nodeNames.Nodup
  properties : g.properties.toList = m.properties
  codes : g.codes.toList = m.codes.map CodeDecl.code
  spans : List.Forall₂
    (fun decl callback => Called m.codeNames decl.callback callback) m.spans
    g.spans.toList
  size : g.size = m.nodes.length
  nodes : ∀ (i : NodeId) (decl : NodeDecl), m.nodes[i]? = some decl →
    decl.Faithful m (g.node i)
  root : Called m.nodeNames m.root root

-- ============================================================= loading

variable {m : Manifest}

/-- A declared kind is made as it says. -/
theorem NodeDeclKind.faithful {decl : NodeDeclKind} {kind : NodeKind}
    (h : decl.nodeKind? m.codeIds m.spanIds = some kind) :
    decl.Faithful m kind := by
  cases decl with
  | dispatch transform =>
      cases h
      exact .dispatch transform
  | error code reason =>
      cases h
      exact .error code reason
  | pause code reason =>
      cases h
      exact .pause code reason
  | consume field =>
      cases h
      exact .consume field
  | invoke name =>
      obtain ⟨code, hcode, rfl⟩ := Option.map_eq_some_iff.mp h
      exact .invoke (getElem?_of_lookup hcode)
  | spanStart name =>
      obtain ⟨span, hspan, rfl⟩ := Option.map_eq_some_iff.mp h
      exact .spanStart (getElem?_of_lookup hspan)
  | spanEnd name =>
      obtain ⟨span, hspan, rfl⟩ := Option.map_eq_some_iff.mp h
      exact .spanEnd (getElem?_of_lookup hspan)

/-- A declared edge is made as it says. -/
theorem EdgeDecl.faithful {decl : EdgeDecl} {edge : Edge}
    (h : decl.edge? m.nodeIds = some edge) : decl.Faithful m edge := by
  obtain ⟨matchKey, peek, select, value, on, next⟩ := decl
  obtain ⟨target, htarget, h⟩ := Option.bind_eq_some_iff.mp h
  have hcalled : Called m.nodeNames next target := getElem?_of_lookup htarget
  dsimp only at h
  -- one case for each of the four ways
  split at h <;> cases h <;>
    exact ⟨rfl, by simp, by simp, by simp, rfl, by simp, hcalled⟩

/-- A node goes on otherwise just as its declaration says. -/
theorem NodeDecl.otherwise_faithful {decl : NodeDecl} {otherwise : Option Edge}
    (h : decl.otherwise? m.nodeIds = some otherwise) :
    (otherwise.isSome = true ↔ decl.otherwise.isSome = true
      ∨ decl.skipTo.isSome = true)
      ∧ (∀ next, decl.otherwise = some next →
        ∃ target, Called m.nodeNames next target
        ∧ otherwise = some ⟨none, target, true, none⟩)
      ∧ ∀ next, decl.skipTo = some next →
        ∃ target, Called m.nodeNames next target
        ∧ otherwise = some ⟨none, target, false, none⟩ := by
  unfold NodeDecl.otherwise? at h
  split at h
  · cases h
  · rename_i next hnext hskip
    obtain ⟨target, htarget, rfl⟩ := Option.map_eq_some_iff.mp h
    rw [hnext, hskip]
    refine ⟨by simp, ?_, nofun⟩
    rintro _ ⟨⟩
    exact ⟨target, getElem?_of_lookup htarget, rfl⟩
  · rename_i next hnext hskip
    obtain ⟨target, htarget, rfl⟩ := Option.map_eq_some_iff.mp h
    rw [hnext, hskip]
    refine ⟨by simp, nofun, ?_⟩
    rintro _ ⟨⟩
    exact ⟨target, getElem?_of_lookup htarget, rfl⟩
  · rename_i hnext hskip
    cases h
    rw [hnext, hskip]
    exact ⟨by simp, nofun, nofun⟩

/-- A declared node is made as it says. -/
theorem NodeDecl.faithful {decl : NodeDecl} {node : Node}
    (h : Whole m.codeIds m.spanIds m.nodeIds decl node) :
    decl.Faithful m node where
  name := h.name
  kind := NodeDeclKind.faithful h.kind
  edges := h.edges.imp fun _ _ => EdgeDecl.faithful
  present := (NodeDecl.otherwise_faithful h.otherwise).1
  stays := (NodeDecl.otherwise_faithful h.otherwise).2.1
  skips := (NodeDecl.otherwise_faithful h.otherwise).2.2

/-- A manifest that loads has a graph of just what it declares. -/
theorem faithful_of_toGraph {loaded : Loaded} (h : m.toGraph = .ok loaded) :
    m.Faithful loaded.graph loaded.root := by
  have hg := m.describes_of_toGraph h
  exact {
    distinctCodes := hg.codeNames
    distinctSpans := hg.spanNames
    distinctNodes := hg.nodeNames
    properties := hg.properties
    codes := hg.codes
    spans := hg.spans.imp fun _ _ => getElem?_of_lookup
    size := hg.size
    nodes := fun _ _ hdecl => NodeDecl.faithful (hg.node hdecl)
    root := getElem?_of_lookup hg.root }

/-- A url between spaces, with edges to nodes before, behind and at where they
are declared. -/
def urlManifest : Manifest where
  root := "start"
  properties := [⟨.i8, "method"⟩]
  codes := [⟨"set_method", .store "method"⟩, ⟨"on_url", .external .span⟩,
    ⟨"ready", .external .plain⟩]
  spans := [⟨"url", "on_url"⟩]
  nodes := [
    { name := "done", kind := .pause 1 "done", otherwise := some "start" },
    { name := "start", kind := .dispatch (some .lower), skipTo := some "start",
      edges :=
        [{ select := some (.bytes [0x67]), value := some 1, next := "store" },
        { matchKey := some (.bytes [0x20, 0x20]), next := "start" },
        { peek := some (.bytes [0x2f]), next := "open" }] },
    { name := "store", kind := .invoke "set_method", otherwise := some "start",
      edges := [{ on := some 3, next := "fail" }] },
    { name := "open", kind := .spanStart "url", otherwise := some "url" },
    { name := "url", kind := .dispatch none, skipTo := some "url",
      edges := [{ peek := some (.bytes [0x20]), next := "close" }] },
    { name := "close", kind := .spanEnd "url", otherwise := some "ready" },
    { name := "ready", kind := .invoke "ready", otherwise := some "done" },
    { name := "fail", kind := .error 2 "bad method" }]

/-- The manifest loads, and what its fields name is found where it is
declared. -/
theorem faithful_urlManifest :
    ∃ loaded, urlManifest.toGraph = .ok loaded ∧ loaded.root = 1
      ∧ urlManifest.Faithful loaded.graph loaded.root := by
  have hroot : urlManifest.toGraph.map (·.root) = .ok 1 := by decide +kernel
  obtain ⟨loaded, hloaded, hroot⟩ := ok_of_map hroot
  exact ⟨loaded, hloaded, hroot, faithful_of_toGraph hloaded⟩

-- ========================================================== uniqueness

theorem NodeDeclKind.Faithful.unique (hcodes : m.codeNames.Nodup)
    (hspans : m.spanNames.Nodup) {decl : NodeDeclKind} {kind kind' : NodeKind}
    (h : decl.Faithful m kind)
    (h' : decl.Faithful m kind') : kind = kind' := by
  cases h <;> cases h'
  case invoke.invoke hcode _ hcode' => rw [hcode.unique hcodes hcode']
  case spanStart.spanStart hspan _ hspan' => rw [hspan.unique hspans hspan']
  case spanEnd.spanEnd hspan _ hspan' => rw [hspan.unique hspans hspan']
  all_goals rfl

theorem EdgeDecl.Faithful.unique (hnodes : m.nodeNames.Nodup) {decl : EdgeDecl}
    {edge edge' : Edge} (h : decl.Faithful m edge)
    (h' : decl.Faithful m edge') :
    edge = edge' := by
  have hkey : edge.key = edge'.key := by
    have hsingle := h.single
    cases hmatch : decl.matchKey with
    | some key =>
        exact (h.bytes key (.inl hmatch)).trans
          (h'.bytes key (.inl hmatch)).symm
    | none =>
    cases hpeek : decl.peek with
    | some key =>
        exact (h.bytes key (.inr (.inl hpeek))).trans
          (h'.bytes key (.inr (.inl hpeek))).symm
    | none =>
    cases hselect : decl.select with
    | some key =>
        exact (h.bytes key (.inr (.inr hselect))).trans
          (h'.bytes key (.inr (.inr hselect))).symm
    | none =>
    cases hon : decl.on with
    | some code =>
        exact (h.returned code hon).trans (h'.returned code hon).symm
    | none =>
        rw [hmatch, hpeek, hselect, hon] at hsingle
        exact absurd hsingle (by decide)
  have hstays : edge.noAdvance = edge'.noAdvance :=
    Bool.eq_iff_iff.mpr (h.stays.trans h'.stays.symm)
  have hvalue : edge.value = edge'.value := h.value.trans h'.value.symm
  have htarget : edge.target = edge'.target := h.target.unique hnodes h'.target
  obtain ⟨key, target, noAdvance, value⟩ := edge
  obtain ⟨key', target', noAdvance', value'⟩ := edge'
  dsimp only at hkey hstays hvalue htarget
  rw [hkey, hstays, hvalue, htarget]

theorem NodeDecl.Faithful.unique (hcodes : m.codeNames.Nodup)
    (hspans : m.spanNames.Nodup) (hnodes : m.nodeNames.Nodup) {decl : NodeDecl}
    {node node' : Node} (h : decl.Faithful m node)
    (h' : decl.Faithful m node') : node = node' := by
  have hname : node.name = node'.name := h.name.trans h'.name.symm
  have hkind : node.kind = node'.kind := h.kind.unique hcodes hspans h'.kind
  have hedges : node.edges = node'.edges :=
    List.forall₂_eq_eq_eq ▸ forall₂_of_common h.edges h'.edges fun _ _ _ =>
      EdgeDecl.Faithful.unique hnodes
  have hotherwise : node.otherwise = node'.otherwise := by
    cases hstays : decl.otherwise with
    | some next =>
        obtain ⟨target, htarget, hedge⟩ := h.stays next hstays
        obtain ⟨target', htarget', hedge'⟩ := h'.stays next hstays
        rw [hedge, hedge', htarget.unique hnodes htarget']
    | none =>
    cases hskips : decl.skipTo with
    | some next =>
        obtain ⟨target, htarget, hedge⟩ := h.skips next hskips
        obtain ⟨target', htarget', hedge'⟩ := h'.skips next hskips
        rw [hedge, hedge', htarget.unique hnodes htarget']
    | none =>
        have hnone : node.otherwise = none := by
          simpa [hstays, hskips] using h.present
        have hnone' : node'.otherwise = none := by
          simpa [hstays, hskips] using h'.present
        rw [hnone, hnone']
  obtain ⟨name, kind, edges, otherwise⟩ := node
  obtain ⟨name', kind', edges', otherwise'⟩ := node'
  dsimp only at hname hkind hedges hotherwise
  rw [hname, hkind, hedges, hotherwise]

/-- A manifest leaves no choice: what it declares is one graph with one
root. -/
theorem Faithful.unique {g g' : Graph} {root root' : NodeId}
    (h : m.Faithful g root) (h' : m.Faithful g' root') :
    g.nodes = g'.nodes ∧ g.codes = g'.codes ∧ g.spans = g'.spans
      ∧ g.properties = g'.properties
      ∧ root = root' := by
  refine ⟨?_, ?_, ?_, ?_, h.root.unique h.distinctNodes h'.root⟩
  · refine Array.ext (h.size.trans h'.size.symm) fun i hi hi' => ?_
    have hlt : i < m.nodes.length := h.size ▸ hi
    have hdecl : m.nodes[i]? = some m.nodes[i] := List.getElem?_eq_getElem hlt
    have hnode := (h.nodes i _ hdecl).unique h.distinctCodes h.distinctSpans
      h.distinctNodes
      (h'.nodes i _ hdecl)
    simpa [Graph.node, Array.getD, hi, hi'] using hnode
  · exact Array.toList_inj.mp (h.codes.trans h'.codes.symm)
  · refine Array.toList_inj.mp
      (List.forall₂_eq_eq_eq ▸ forall₂_of_common h.spans h'.spans ?_)
    exact fun _ _ _ hcalled => hcalled.unique h.distinctCodes
  · exact Array.toList_inj.mp (h.properties.trans h'.properties.symm)

end Manifest

end Bytewise

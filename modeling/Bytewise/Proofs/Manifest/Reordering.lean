/-
Manifests that declare the same.

What a manifest refers to it names, and only the graph has numbers, which
follow the order of declarations. So if another manifest declares all that
this one does, in whatever order and among whatever else, its graph has
the nodes of this one's under other numbers. What it declares besides
cannot be reached: nothing here could name it.
-/
import Bytewise.Proofs.Manifest.Loading
import Bytewise.Proofs.Parser.Numbering

namespace Bytewise.Manifest

-- ======================================================== declarations

section

variable {codes codes' : Names CodeRef} {spans spans' : Names SpanId}
  {nodes nodes' : Names NodeId} {N : NodeId → NodeId → Prop}
  {C : CodeRef → CodeRef → Prop} {S : SpanId → SpanId → Prop}

/-- One kind declared in two manifests is made of what its names stand for in
each. -/
theorem NodeDeclKind.matches
    (hcodes : ∀ name c c', codes.lookup name = some c →
      codes'.lookup name = some c' → C c c')
    (hspans : ∀ name s s', spans.lookup name = some s →
      spans'.lookup name = some s' → S s s')
    {decl : NodeDeclKind} {kind kind' : NodeKind}
    (h : decl.nodeKind? codes spans = some kind)
    (h' : decl.nodeKind? codes' spans' = some kind') :
    kind.Matches C S kind' := by
  cases decl with
  | dispatch transform =>
      cases h
      cases h'
      exact .dispatch transform
  | error code reason =>
      cases h
      cases h'
      exact .error code reason
  | pause code reason =>
      cases h
      cases h'
      exact .pause code reason
  | consume field =>
      cases h
      cases h'
      exact .consume field
  | invoke name =>
      obtain ⟨c, hc, rfl⟩ := Option.map_eq_some_iff.mp h
      obtain ⟨c', hc', rfl⟩ := Option.map_eq_some_iff.mp h'
      exact .invoke (hcodes name c c' hc hc')
  | spanStart name =>
      obtain ⟨s, hs, rfl⟩ := Option.map_eq_some_iff.mp h
      obtain ⟨s', hs', rfl⟩ := Option.map_eq_some_iff.mp h'
      exact .spanStart (hspans name s s' hs hs')
  | spanEnd name =>
      obtain ⟨s, hs, rfl⟩ := Option.map_eq_some_iff.mp h
      obtain ⟨s', hs', rfl⟩ := Option.map_eq_some_iff.mp h'
      exact .spanEnd (hspans name s s' hs hs')

variable (hnodes : ∀ name n n', nodes.lookup name = some n →
  nodes'.lookup name = some n' → N n n')
include hnodes

theorem EdgeDecl.matches {decl : EdgeDecl} {edge edge' : Edge}
    (h : decl.edge? nodes = some edge)
    (h' : decl.edge? nodes' = some edge') : edge.Matches N edge' := by
  obtain ⟨matchKey, peek, select, value, on, next⟩ := decl
  obtain ⟨target, htarget, h⟩ := Option.bind_eq_some_iff.mp h
  obtain ⟨target', htarget', h'⟩ := Option.bind_eq_some_iff.mp h'
  have hmatch := hnodes next target target' htarget htarget'
  dsimp only at h h'
  split at h <;> cases h <;> cases h' <;> exact ⟨rfl, hmatch, rfl, rfl⟩

theorem NodeDecl.otherwise_matches {decl : NodeDecl}
    {otherwise otherwise' : Option Edge}
    (h : decl.otherwise? nodes = some otherwise)
    (h' : decl.otherwise? nodes' = some otherwise') :
    Option.Rel (Edge.Matches N) otherwise otherwise' := by
  unfold NodeDecl.otherwise? at h h'
  split at h
  · cases h
  · rename_i next hnext hskip
    rw [hnext, hskip] at h'
    obtain ⟨target, htarget, rfl⟩ := Option.map_eq_some_iff.mp h
    obtain ⟨target', htarget', rfl⟩ := Option.map_eq_some_iff.mp h'
    exact .some ⟨rfl, hnodes _ _ _ htarget htarget', rfl, rfl⟩
  · rename_i next hnext hskip
    rw [hnext, hskip] at h'
    obtain ⟨target, htarget, rfl⟩ := Option.map_eq_some_iff.mp h
    obtain ⟨target', htarget', rfl⟩ := Option.map_eq_some_iff.mp h'
    exact .some ⟨rfl, hnodes _ _ _ htarget htarget', rfl, rfl⟩
  · rename_i hnext hskip
    rw [hnext, hskip] at h'
    cases h
    cases h'
    exact .none

/-- Nodes of one declaration match if what it names does. -/
theorem Whole.matches
    (hcodes : ∀ name c c', codes.lookup name = some c →
      codes'.lookup name = some c' → C c c')
    (hspans : ∀ name s s', spans.lookup name = some s →
      spans'.lookup name = some s' → S s s')
    {decl : NodeDecl} {node node' : Node}
    (h : Whole codes spans nodes decl node)
    (h' : Whole codes' spans' nodes' decl node') :
    Node.Matches N C S node node' where
  name := h.name.trans h'.name.symm
  kind := NodeDeclKind.matches hcodes hspans h.kind h'.kind
  edges := forall₂_of_common h.edges h'.edges fun _ _ _ =>
    EdgeDecl.matches hnodes
  otherwise := NodeDecl.otherwise_matches hnodes h.otherwise h'.otherwise

end

-- ============================================================== graphs

namespace Describes

variable {m : Manifest} {g : Graph} {root : NodeId}

/-- The graph has the nodes of the manifest. -/
theorem size (h : m.Describes g root) : g.size = m.nodes.length :=
  h.nodes.length_eq.symm

/-- Each node is what its declaration says. -/
theorem node (h : m.Describes g root) {n : NodeId} {decl : NodeDecl}
    (hn : m.nodes[n]? = some decl) :
    Whole m.codeIds m.spanIds m.nodeIds decl (g.node n) := by
  obtain ⟨node, hnode, hwhole⟩ := getElem?_of_forall₂ h.nodes hn
  unfold Graph.node
  rwa [Array.getD_eq_getD_getElem?, ← Array.getElem?_toList, hnode]

/-- A node is called as it is looked up. -/
theorem name (h : m.Describes g root) {name : String} {n : NodeId}
    (hn : m.nodeIds.lookup name = some n) : (g.node n).name = name := by
  have hmap := getElem?_of_lookup hn
  rw [List.getElem?_map] at hmap
  obtain ⟨decl, hdecl, rfl⟩ := Option.map_eq_some_iff.mp hmap
  exact (h.node hdecl).name

/-- A code is what the declaration of its name says. -/
theorem code (h : m.Describes g root) {name : String} {ref : CodeRef}
    (href : m.codeIds.lookup name = some ref) :
    ∃ decl ∈ m.codes, decl.name = name ∧ g.code ref = decl.code := by
  have hmap := getElem?_of_lookup href
  rw [List.getElem?_map] at hmap
  obtain ⟨decl, hdecl, rfl⟩ := Option.map_eq_some_iff.mp hmap
  refine ⟨decl, List.mem_of_getElem? hdecl, rfl, ?_⟩
  unfold Graph.code
  rw [Array.getD_eq_getD_getElem?, ← Array.getElem?_toList, h.codes,
    List.getElem?_map, hdecl]
  rfl

/-- Each span has the callback that its declaration names. -/
theorem callback (h : m.Describes g root) {s : SpanId} {decl : SpanDecl}
    (hs : m.spans[s]? = some decl) :
    m.codeIds.lookup decl.callback = some (g.spanCallback s) := by
  obtain ⟨ref, href, hlookup⟩ := getElem?_of_forall₂ h.spans hs
  unfold Graph.spanCallback
  rwa [Array.getD_eq_getD_getElem?, ← Array.getElem?_toList, href]

theorem root_lt (h : m.Describes g root) : root < g.size := by
  have hlt := lt_of_lookup h.root
  rwa [List.length_map, ← h.size] at hlt

end Describes

-- ======================================================== renumbering

section

variable {m m' : Manifest} {g g' : Graph} {root root' : NodeId} {name : String}

/-- The number that the node of this number in `g` has where the other manifest
declares it. -/
def renumber (m' : Manifest) (g : Graph) (n : NodeId) : NodeId :=
  (m'.nodeIds.lookup (g.node n).name).getD 0

/-- One name is looked up to one code. -/
theorem Describes.same_code (h : m.Describes g root)
    (h' : m'.Describes g' root') (hcodes : m.codes ⊆ m'.codes) {c c' : CodeRef}
    (hc : m.codeIds.lookup name = some c)
    (hc' : m'.codeIds.lookup name = some c') : g.code c = g'.code c' := by
  obtain ⟨decl, hdecl, hname, hcode⟩ := h.code hc
  obtain ⟨decl', hdecl', hname', hcode'⟩ := h'.code hc'
  rw [hcode, hcode', List.inj_on_of_nodup_map h'.codeNames
    (hcodes hdecl) hdecl'
    (hname.trans hname'.symm)]

/-- A node gets the number that its name has in the other manifest. -/
theorem Describes.renumber_eq (h : m.Describes g root) {n n' : NodeId}
    (hn : m.nodeIds.lookup name = some n)
    (hn' : m'.nodeIds.lookup name = some n') :
    renumber m' g n = n' := by
  unfold renumber
  rw [h.name hn, hn']
  rfl

/-- What one manifest declares has a number in another that declares it too. -/
theorem Describes.exists_renumbered (h : m.Describes g root)
    (h' : m'.Describes g' root') (hnodes : m.nodes ⊆ m'.nodes) {n : NodeId}
    (hn : n < g.size) :
    ∃ decl, m.nodes[n]? = some decl ∧ m'.nodes[renumber m' g n]?
        = some decl := by
  rw [h.size] at hn
  have hdecl := List.getElem?_eq_getElem hn
  obtain ⟨n', hn'⟩ := List.getElem?_of_mem (hnodes (List.getElem_mem hn))
  have hlookup : m.nodeIds.lookup m.nodes[n].name = some n := by
    rw [lookup_numbered h.nodeNames, List.getElem?_map, hdecl]
    rfl
  have hlookup' : m'.nodeIds.lookup m.nodes[n].name = some n' := by
    rw [lookup_numbered h'.nodeNames, List.getElem?_map, hn']
    rfl
  rw [h.renumber_eq hlookup hlookup']
  exact ⟨_, hdecl, hn'⟩

/-- A manifest that declares at least as much, with the same spans and the same
root, has the nodes of this one under other numbers. -/
theorem Describes.renumbering (h : m.Describes g root)
    (h' : m'.Describes g' root') (hcodes : m.codes ⊆ m'.codes)
    (hspans : m.spans = m'.spans) (hnodes : m.nodes ⊆ m'.nodes)
    (hroot : m.root = m'.root) :
    Graph.Renumbering (renumber m' g) id g root g' root' := by
  have hlt : ∀ n, g.Reaches root n → n < g.size :=
    fun n => h.sound.reaches_lt h.root_lt
  refine .of_injOn (h.renumber_eq h.root (hroot ▸ h'.root))
    (fun a ha b hb hab => ?_)
    (fun n hn => ?_) (fun s t _ _ hst => hst) fun s hs => ?_
  · -- nodes with one number are declared in one place, so in this manifest too
    obtain ⟨decl, hdecl, hrenumbered⟩ :=
      h.exists_renumbered h' hnodes (hlt a ha)
    obtain ⟨decl', hdecl', hrenumbered'⟩ :=
      h.exists_renumbered h' hnodes (hlt b hb)
    rw [hab, hrenumbered'] at hrenumbered
    have hsame := hdecl.trans (hrenumbered.symm.trans hdecl'.symm)
    exact (List.getElem?_inj (h.size ▸ hlt a ha) h.nodeNames.of_map).mp hsame
  · obtain ⟨decl, hdecl, hdecl'⟩ := h.exists_renumbered h' hnodes (hlt n hn)
    refine Whole.matches (fun _ _ _ => h.renumber_eq)
      (fun _ _ _ => h.same_code h' hcodes)
      (fun name s s' hs hs' => ?_) (h.node hdecl) (h'.node hdecl')
    unfold spanIds at hs hs'
    rw [hspans, hs'] at hs
    exact (Option.some.inj hs).symm
  · have hs : s < m.spans.length := h.spans.length_eq ▸ hs.lt h.sound h.root_lt
    have hdecl := List.getElem?_eq_getElem hs
    exact h.same_code h' hcodes (h.callback hdecl)
      (h'.callback (hspans ▸ hdecl))

end

end Bytewise.Manifest

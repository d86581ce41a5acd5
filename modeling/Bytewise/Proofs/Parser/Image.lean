/-
The parser of a graph, state by state.

Removing forwarding states moves edges, each along nodes of the graph that
only pass on (`Graph.Forwards`); it changes nothing else. So the states of
the finished parser still do what they stand for, with one more freedom:
an edge to a node may lead to a node that it forwards to. `Image` is all
that later theorems need to know of the assembly.
-/
import Bytewise.Proofs.Parser.Assembled

namespace Bytewise

namespace Graph

/-- The node is a match node without keyed edges that goes on to another
without consuming. -/
def PassesTo (g : Graph) (a b : NodeId) : Prop :=
  ∃ t edge, (g.node a).kind = .dispatch t ∧ (g.node a).edges = []
    ∧ (g.node a).otherwise = some edge ∧ edge.noAdvance = true
    ∧ edge.target = b

/-- Nodes that only pass on lead from one node to the other. -/
def Forwards (g : Graph) : NodeId → NodeId → Prop :=
  Relation.ReflTransGen g.PassesTo

end Graph

-- =========================================================== redirected

namespace Layout

variable {l : Layout} {bp : Blueprint} {id : NodeId} {next : StateId}
  {index : Nat}

/-- Edges to `old` may as well lead to `next`. -/
structure Redirects (l : Layout) (old next : StateId) : Prop where
  below : ∀ id t, l.Below id t old → l.Below id t next
  lands : ∀ n, l.lands n old → l.lands n next

/-- A keyed edge that is redirected. -/
def moved (next : StateId) (edge : Machine.Edge) : Machine.Edge :=
  { edge with target := next }

theorem Branching.redirect {bs : List (UInt8 × Bool × Trie)}
    {edges : List Machine.Edge} (h : l.Branching id bs edges)
    {edge : Machine.Edge} (hedge : edges[index]? = some edge)
    (hr : l.Redirects edge.target next) :
    l.Branching id bs (edges.modify index (moved next)) where
  used e he := by
    rcases mem_modify hedge he with he | rfl
    · exact h.used e he
    · exact h.used edge (List.mem_of_getElem? hedge)
  branch e he b htakes := by
    rcases mem_modify hedge he with he | rfl
    · exact h.branch e he b htakes
    · obtain ⟨x, hx, hbyte, hstays, hvalue, hbelow⟩ :=
        h.branch edge (List.mem_of_getElem? hedge) b htakes
      exact ⟨x, hx, hbyte, hstays, hvalue, hr.below id _ hbelow⟩
  complete x hx := by
    obtain ⟨e, he, htakes⟩ := h.complete x hx
    rcases mem_modify_of_mem (f := moved next)
      (i := index) he with he | ⟨_, he⟩
    · exact ⟨e, he, htakes⟩
    · exact ⟨_, he, htakes⟩

theorem CodeEdges.redirect {node : Node} {edges : List Machine.Edge}
    (h : l.CodeEdges node edges) {edge : Machine.Edge}
    (hedge : edges[index]? = some edge) (hr : l.Redirects edge.target next) :
    l.CodeEdges node (edges.modify index (moved next)) where
  made e' he' := by
    rcases mem_modify hedge he' with he' | rfl
    · exact h.made e' he'
    · obtain ⟨e, he, hkey, hstays, hvalue, hlands⟩ :=
        h.made edge (List.mem_of_getElem? hedge)
      exact ⟨e, he, hkey, hstays, hvalue, hr.lands _ hlands⟩
  complete hinvoke e he := by
    obtain ⟨e', he', hkey, hstays, hvalue, hlands⟩ := h.complete hinvoke e he
    rcases mem_modify_of_mem (f := moved next) (i := index) he' with hkept
      | ⟨hthere, hkept⟩
    · exact ⟨e', hkept, hkey, hstays, hvalue, hlands⟩
    · obtain rfl := Option.some.inj (hthere.symm.trans hedge)
      exact ⟨_, hkept, hkey, hstays, hvalue, hr.lands _ hlands⟩

theorem Keyed.redirect {t : Trie} {state : Machine.State}
    (h : l.Keyed id t state) {edge : Machine.Edge}
    (hedge : state.edges[index]? = some edge)
    (hr : l.Redirects edge.target next) :
    l.Keyed id t
        { state with edges := state.edges.modify index (moved next) } := by
  cases t with
  | leaf leaf => exact h
  | sequence literal child =>
      obtain ⟨hkind, e, hedges, hkey, hadvance, hvalue, hbelow⟩ := h
      rw [hedges] at hedge
      have hindex : index = 0 := by
        have hlt := (List.getElem?_eq_some_iff.mp hedge).1
        exact Nat.lt_one_iff.mp hlt
      subst hindex
      obtain rfl := Option.some.inj hedge
      refine ⟨hkind, moved next e, ?_, hkey, hadvance, hvalue,
        hr.below id child hbelow⟩
      show state.edges.modify 0 (moved next) = [moved next e]
      rw [hedges]
      rfl
  | single bs fallback => exact ⟨h.1, h.2.redirect hedge hr⟩

/-- A state whose otherwise edge is redirected does as before. -/
theorem Closed.redirect {node : Node} {t : Trie} {edge : Machine.Edge}
    (h : l.Closed node t (some edge)) (hr : l.Redirects edge.target next) :
    l.Closed node t (some (moved next edge)) := by
  obtain ⟨e, e', hclosing, hsame, hstays, hvalue, hlands⟩ := closed_iff.mp h
  obtain rfl := Option.some.inj hsame
  exact closed_iff.mpr ⟨e, _, hclosing, rfl, hstays, hvalue, hr.lands _ hlands⟩

/-- A state with an edge redirected does as before. -/
theorem Realizes.redirect {role : Role} {state : Machine.State}
    (h : l.Realizes bp role state) {edge : Machine.Edge}
    (hedge : state.allEdges[index]? = some edge)
    (hr : l.Redirects edge.target next) :
    l.Realizes bp role (state.retarget index next) := by
  unfold Machine.State.retarget
  unfold Machine.State.allEdges at hedge
  split
  · rename_i hlt
    rw [List.getElem?_append_left hlt] at hedge
    cases h with
    | whole kind edges otherwise ends =>
        exact .whole kind (edges.redirect hedge hr) otherwise ends
    | part transform keyed otherwise =>
        exact .part transform (keyed.redirect hedge hr) otherwise
  · rename_i hge
    rw [List.getElem?_append_right (Nat.not_lt.mp hge)] at hedge
    have hother : state.otherwise = some edge := by
      exact Option.mem_toList.mp (List.mem_of_getElem? hedge)
    have hmap : state.otherwise.map
        (fun edge => ({ edge with target := next } : Machine.Edge))
        = some (moved next edge) := by
      rw [hother]
      rfl
    rw [hmap]
    cases h with
    | whole kind edges otherwise ends =>
        refine .whole kind edges (fun e he => ?_) (fun hnone => ?_)
        · obtain ⟨e', he', hstays, hvalue, hlands⟩ := otherwise e he
          obtain rfl := Option.some.inj (he'.symm.trans hother)
          exact ⟨_, rfl, hstays, hvalue, hr.lands _ hlands⟩
        · rw [(ends hnone).1] at hother
          cases hother
    | part transform keyed otherwise =>
        rw [hother] at otherwise
        refine .part transform ?_ (otherwise.redirect hr)
        cases ‹Trie› <;> exact keyed

end Layout

-- ============================================================== images

/-- The states of a parser do what they stand for in a graph; `entry` has the
state that stands for each node. -/
structure Parser.Image (parser : Parser) (bp : Blueprint) (root : NodeId)
    (entry : NodeId → Option StateId) (l : Layout) : Prop where
  machine : l.machine = parser.machine
  lands : ∀ n s, l.lands n s ↔ ∃ k, bp.graph.Forwards n k ∧ entry k = some s
  size : l.roles.length = parser.machine.size
  realizes : ∀ (s : StateId) (role : Role), l.roles[s]? = some role →
    l.Realizes bp role (parser.machine.state s)
  entered : ∀ n s, entry n = some s → ∃ role, l.roles[s]? = some role
    ∧ bp.Enters n role
  allowed : ∀ role ∈ l.roles, bp.Allows root role
  distinct : ∀ i j, i < parser.machine.codes.size →
    j < parser.machine.codes.size →
    (parser.machine.code i).key = (parser.machine.code j).key → i = j
  slots : List.Forall₂ (Assembly.IsSlot l bp) bp.spans.sharing parser.slots

namespace Assembly

variable {bp : Blueprint} {root : NodeId} {a : Assembly} {roles : List Role}

/-- The layout of an assembly in which edges may lead on to where nodes
forward. -/
def onward (a : Assembly) (g : Graph) (roles : List Role) (m : Machine) :
    Layout where
  machine := m
  roles := roles
  lands n s := ∃ k, g.Forwards n k ∧ a.stateOf? k = some s

/-- The machine has the codes of the assembly, and its states do what they
stand for, forwarding aside. -/
structure Redirected (bp : Blueprint) (a : Assembly) (roles : List Role)
    (m : Machine) : Prop where
  codes : m.codes = a.machine.codes
  size : m.size = a.machine.size
  realizes : ∀ (s : StateId) (role : Role), roles[s]? = some role →
    (a.onward bp.graph roles m).Realizes bp role (m.state s)

/-- A state that stands for a node and passes on does so where the node
does. -/
theorem passesTo_of_passes {l : Layout} {role : Role} {m : Machine}
    {s next : StateId} (h : l.Realizes bp role (m.state s))
    (hnext : m.Passes s next) :
    ∃ n k, role = .whole n ∧ bp.graph.PassesTo n k ∧ l.lands k next := by
  obtain ⟨edge, ⟨hkind, hedges, hother, hstays, _⟩, rfl⟩ := hnext
  generalize hstate : m.state s = state at h hkind hedges hother
  cases h with
  | @whole n _ kind edges otherwise ends =>
      rw [hkind] at kind
      obtain ⟨⟨t, ht⟩, hnone⟩ := kind
      cases hnode : (bp.graph.node n).otherwise with
      | none =>
          rw [(ends hnode).1] at hother
          cases hother
      | some e =>
          obtain ⟨e', he', hsame, _, hlands⟩ := otherwise e hnode
          obtain rfl := Option.some.inj (he'.symm.trans hother)
          exact ⟨n, e.target, rfl,
            ⟨t, e, ht, hnone, hnode, hsame ▸ hstays, rfl⟩, hlands⟩
  | @part n t _ transform keyed otherwise =>
      have hdispatches := keyed.dispatches
      rw [hkind] at hdispatches
      exact hdispatches.elim

variable {pending : StateId → Prop}

/-- Edges into a state that passes on may be redirected. -/
private theorem redirects_of_forwardTarget (h : Tracks bp root pending a roles)
    {m : Machine} (hm : Redirected bp a roles m) {s next : StateId}
    (hnext : m.forwardTarget? s = some next) :
    (a.onward bp.graph roles m).Redirects s next := by
  have hlands : ∀ n, (a.onward bp.graph roles m).lands n s →
      (a.onward bp.graph roles m).lands n next := by
    intro n hsome
    obtain ⟨k, hforwards, hk⟩ := hsome
    obtain ⟨role, hrole, henters⟩ := h.entered k s hk
    obtain ⟨n', k', rfl, hpasses, k'', hforwards', hk''⟩ :=
      passesTo_of_passes (hm.realizes s role hrole)
        (Machine.passes_of_forwardTarget hnext)
    cases henters with
    | whole => exact ⟨k'', (hforwards.tail hpasses).trans hforwards', hk''⟩
  refine ⟨fun id t hbelow => ?_, hlands⟩
  have hdeep : roles[s]? = some (.part id t) → False := by
    intro hrole
    obtain ⟨_, _, heq, _⟩ := passesTo_of_passes (hm.realizes s _ hrole)
      (Machine.passes_of_forwardTarget hnext)
    cases heq
  cases t with
  | leaf leaf => exact hlands _ hbelow
  | sequence literal child => exact (hdeep hbelow).elim
  | single bs fallback => exact (hdeep hbelow).elim

/-- Removing forwarding states leaves states that do what they stand for. -/
theorem keeps_redirected (h : Tracks bp root pending a roles) :
    Machine.Keeps (Redirected bp a roles) := by
  intro m id index edge next hm hedge hnext
  have hr := redirects_of_forwardTarget h hm hnext
  have hext : (a.onward bp.graph roles m).Extends
      (a.onward bp.graph roles (m.retarget id index next)) :=
    ⟨Nat.le_refl _, fun _ _ => rfl, fun _ _ h => h, fun _ _ h => h⟩
  refine ⟨hm.codes, (Machine.size_modify m id _).trans hm.size,
    fun s role hrole => ?_⟩
  have hlt : s < m.size := by
    rw [hm.size]
    exact h.lt hrole
  have hstate : (m.retarget id index next).state s
      = if id = s then (m.state s).retarget index next else m.state s :=
    Machine.state_modify hlt id _
  rw [hstate]
  split
  · rename_i hid
    subst hid
    exact hext.realizes ((hm.realizes id role hrole).redirect hedge hr)
  · exact hext.realizes (hm.realizes s role hrole)

-- ============================================================= reached

variable {l : Layout} {m : Machine} {inside : StateId → Prop}

/-- From a state that stands for a part of a trie, edges lead to where all that
the part reads lands. They stay inside any set of states that edges do not
leave. -/
private theorem lands_of_covers
    (hrealizes : ∀ (s : StateId) (role : Role), l.roles[s]? = some role →
      l.Realizes bp role (m.state s))
    (hstays : ∀ s, inside s →
      ∀ edge ∈ (m.state s).allEdges, inside edge.target) {id : NodeId}
    {t : Trie} {entries : List TrieEntry} (hcovers : Trie.Covers t entries)
    {s : StateId} (hs : l.Below id t s) (hinside : inside s) :
    ∀ e ∈ entries, ∃ s', inside s' ∧ l.lands e.target s' := by
  induction hcovers generalizing s with
  | leaf ended =>
      intro e he
      rw [List.mem_singleton.mp he]
      exact ⟨s, hinside, hs⟩
  | @sequence literal child entries _ _ _ _ _ ih =>
      have hedges := hstays s hinside
      cases hrealizes s _ hs with
      | part transform keyed closed =>
          obtain ⟨_, edge, hedge, _, _, _, hbelow⟩ := keyed
          have hnext : inside edge.target :=
            hedges edge (List.mem_append_left _ (by simp [hedge]))
          intro e he
          exact ih hbelow hnext (e.dropKey literal.length)
            (List.mem_map_of_mem he)
  | @single bs fallback entries _ bytes _ _ alone ended ih =>
      have hedges := hstays s hinside
      cases hrealizes s _ hs with
      | part transform keyed closed =>
          intro e he
          cases hkey : e.key with
          | nil =>
              cases hfind : entries.find? (·.key.isEmpty) with
              | none =>
                  exact absurd (List.isEmpty_iff.mpr hkey)
                    (List.find?_eq_none.mp hfind e he)
              | some o =>
                  have hended : o.key.isEmpty = true :=
                    List.find?_some (p := fun o : TrieEntry => o.key.isEmpty)
                      hfind
                  obtain rfl :=
                    alone e he o (List.mem_of_find?_eq_some hfind) hkey
                    (List.isEmpty_iff.mp hended)
                  rw [ended, hfind] at closed
                  obtain ⟨edge, hother, _, _, hlands⟩ := closed
                  exact ⟨edge.target,
                    hedges edge (List.mem_append_right _ (by simp [hother])),
                    hlands⟩
          | cons b key =>
              have hmem : e.dropKey 1 ∈ TrieEntry.derive b entries :=
                TrieEntry.mem_derive.mpr ⟨e, he, ⟨key, hkey⟩, rfl⟩
              obtain ⟨x, hx, rfl⟩ := (bytes b).mp (List.ne_nil_of_mem hmem)
              obtain ⟨edge, hedge, htakes⟩ := keyed.2.complete x hx
              obtain ⟨y, hy, hbyte, _, _, hbelow⟩ :=
                keyed.2.branch edge hedge x.1 htakes
              exact ih y hy hbelow (hedges edge (List.mem_append_left _ hedge))
                (e.dropKey 1)
                (hbyte ▸ hmem)

/-- Edges of a match node have keys that are not empty. -/
theorem entries_ne_nil (hg : bp.graph.Sound) {id : NodeId} :
    ∀ e ∈ (bp.graph.node id).entries, e.key ≠ [] := by
  intro e he
  obtain ⟨edge, hedge, hentry⟩ := mem_entries.mp he
  have hid := Graph.lt_of_mem_allEdges (Graph.mem_allEdges.mpr (Or.inl hedge))
  have hfits := (hg.nodes id hid).keyed edge hedge
  have hkey := (entry?_eq_some.mp hentry).1
  cases hkind : (bp.graph.node id).kind with
  | dispatch t =>
      rw [hkind] at hfits
      obtain ⟨bs, hbs, hne, _⟩ := hfits
      obtain rfl := EdgeKey.bytes.inj (Option.some.inj (hbs.symm.trans hkey))
      exact hne
  | invoke ref =>
      rw [hkind] at hfits
      obtain ⟨⟨code, hcode⟩, _⟩ := hfits
      rw [hkey] at hcode
      cases hcode
  | _ =>
      rw [hkind] at hfits
      exact hfits.elim

/-- The part of its trie that stands for a node has no key that has ended. -/
theorem top_of_builds (hg : bp.graph.Sound) {id : NodeId}
    (hid : id < bp.graph.size) {t : Trie}
    (h : bp.Builds id t) : t.Deep ∧ ∀ bs leaf, t ≠ .single bs (some leaf) := by
  have hcovers := h.covers hg hid
  have hkeys : ∀ e ∈ (bp.graph.node id).entries.mergeSort TrieEntry.keyLE,
      e.key ≠ [] :=
    fun e he => entries_ne_nil hg e ((List.mergeSort_perm _ _).mem_iff.mp he)
  generalize (bp.graph.node id).entries.mergeSort TrieEntry.keyLE
    = entries at hcovers hkeys
  cases hcovers with
  | leaf ended => exact absurd ended (hkeys _ (List.mem_singleton.mpr rfl))
  | sequence _ _ _ _ _ => exact ⟨trivial, fun _ _ heq => nomatch heq⟩
  | single _ _ _ _ _ ended =>
      refine ⟨trivial, fun bs leaf heq => ?_⟩
      obtain ⟨_, hsome⟩ := Trie.single.inj heq
      rw [hsome] at ended
      obtain ⟨e, hfind, _⟩ := Option.map_eq_some_iff.mp ended.symm
      have hnil : e.key.isEmpty = true :=
        List.find?_some (p := fun e : TrieEntry => e.key.isEmpty) hfind
      exact hkeys e (List.mem_of_find?_eq_some hfind)
        (List.isEmpty_iff.mp hnil)

/-- The part of its trie that stands for a node goes on to the otherwise edge
of the node. -/
theorem closed_of_builds {l : Layout} (hg : bp.graph.Sound) {id : NodeId}
    (hid : id < bp.graph.size) {t : Trie} (h : bp.Builds id t)
    {otherwise : Option Machine.Edge}
    (hclosed : l.Closed (bp.graph.node id) t otherwise) :
    ∃ edge edge', (bp.graph.node id).otherwise = some edge
      ∧ otherwise = some edge'
      ∧ l.IsOtherwise edge edge' := by
  obtain ⟨_, htop⟩ := top_of_builds hg hid h
  obtain ⟨_, edge', hclosing, hother, hlike⟩ := Layout.closed_iff.mp hclosed
  rcases Layout.closing_cases hclosing with ⟨edge, hnode, rfl⟩
    | ⟨bs, leaf, rfl, _⟩
  · exact ⟨edge, edge', hnode, hother, hlike⟩
  · exact absurd rfl (htop bs leaf)

/-- From the state that stands for a node, edges lead to where the edges of the
node land. They stay inside any set of states that edges do not leave. -/
theorem lands_of_leads (hg : bp.graph.Sound)
    (hrealizes : ∀ (s : StateId) (role : Role), l.roles[s]? = some role →
      l.Realizes bp role (m.state s))
    (hstays : ∀ s, inside s →
      ∀ edge ∈ (m.state s).allEdges, inside edge.target) {n k : NodeId}
    {s : StateId} {role : Role} (hrole : l.roles[s]? = some role)
    (henters : bp.Enters n role) (hinside : inside s)
    (hleads : bp.graph.Leads n k) :
    ∃ s', inside s' ∧ l.lands k s' := by
  have hid := Graph.lt_of_leads hleads
  have hedges := hstays s hinside
  obtain ⟨e, he, rfl⟩ := Graph.leads_iff_edge.mp hleads
  have hstate := hrealizes s role hrole
  cases henters with
  | whole hbare =>
      cases hstate with
      | whole kind edges otherwise ends =>
          rcases Graph.mem_allEdges.mp he with he | he
          · have hfits := (hg.nodes n hid).keyed e he
            cases hkind : (bp.graph.node n).kind with
            | dispatch t =>
                rw [hbare t hkind] at he
                cases he
            | invoke ref =>
                obtain ⟨e', he', _, _, _, hlands⟩ :=
                  edges.complete ⟨ref, hkind⟩ e he
                exact ⟨e'.target, hedges e' (List.mem_append_left _ he'),
                  hlands⟩
            | _ =>
                rw [hkind] at hfits
                exact hfits.elim
          · obtain ⟨e', he', _, _, hlands⟩ := otherwise e he
            exact ⟨e'.target,
              hedges e' (List.mem_append_right _ (by simp [he'])), hlands⟩
  | @part t hbuilds =>
      cases hstate with
      | part transform keyed closed =>
          rcases Graph.mem_allEdges.mp he with he | he
          · have hdeep := (top_of_builds hg hid hbuilds).1
            have hbelow : l.Below n t s := by
              cases t with
              | leaf leaf => exact hdeep.elim
              | sequence literal child => exact hrole
              | single bs fallback => exact hrole
            have hfits := (hg.nodes n hid).keyed e he
            rw [transform] at hfits
            obtain ⟨bs, hkey, _⟩ := hfits
            have hmem : ⟨bs, e.target, e.noAdvance, e.value⟩
                ∈ (bp.graph.node n).entries :=
              mem_entries.mpr ⟨e, he, entry?_eq_some.mpr ⟨hkey, rfl, rfl, rfl⟩⟩
            exact lands_of_covers hrealizes hstays (hbuilds.covers hg hid)
              hbelow hinside _
              ((List.mergeSort_perm _ _).mem_iff.mpr hmem)
          · obtain ⟨edge, edge', hedge, hother, _, _, hlands⟩ :=
              closed_of_builds hg hid hbuilds closed
            obtain rfl := Option.some.inj (hedge.symm.trans he)
            exact ⟨edge'.target, hedges edge'
              (List.mem_append_right _ (by simp [hother])), hlands⟩

/-- With a node, the nodes that its edges lead to are entered. -/
theorem Tracks.leads (h : Tracks bp root (fun _ => False) a roles)
    (hg : bp.graph.Sound) {n k : NodeId} {s : StateId}
    (hs : a.stateOf? n = some s) (hleads : bp.graph.Leads n k) :
    ∃ s', a.stateOf? k = some s' := by
  obtain ⟨role, hrole, henters⟩ := h.entered n s hs
  obtain ⟨s', -, hlands⟩ :=
    @lands_of_leads _ (a.layout roles) a.machine (fun _ => True) hg
    (fun s role hs => h.settled s role hs not_false) (fun _ _ _ _ => trivial) n
      k s role hrole
    henters trivial hleads
  exact ⟨s', hlands⟩

/-- All nodes that are reached are entered. -/
theorem Tracks.reaches (h : Tracks bp root (fun _ => False) a roles)
    (hg : bp.graph.Sound) {r : StateId} (hroot : a.stateOf? root = some r)
    {n : NodeId} (hn : bp.graph.Reaches root n) :
    ∃ s, a.stateOf? n = some s := by
  induction hn with
  | refl => exact ⟨r, hroot⟩
  | tail _ hleads ih =>
      obtain ⟨s, hs⟩ := ih
      exact h.leads hg hs hleads

end Assembly

-- ============================================================= parsers

namespace Parser

/-- The state that a node is translated to, forwarding aside. -/
def translation (g : Graph) (root : NodeId) (symbolPrefix : String)
    (options : Options) (n : NodeId) : Option StateId :=
  match assembled g root symbolPrefix options with
  | .ok (_, done) => done.stateOf? n
  | .error _ => none

variable {g : Graph} {root : NodeId} {symbolPrefix : String}
  {options : Options} {parser : Parser}

/-- What a parser is made of. -/
theorem assembled_of_ofGraph
    (hok : ofGraph g root symbolPrefix options = .ok parser) :
    ∃ slots r done, assembled g root symbolPrefix options
      = .ok ((slots, r), done)
      ∧ parser.machine
        = (done.machine.skipForwarding r (done.machine.enumerate r)).1
      ∧ parser.root = parser.machine.forwardRoot (parser.machine.size + 1) r
      ∧ parser.slots = slots := by
  obtain ⟨⟨⟨slots, r⟩, done⟩, hdone, hparser⟩ := ok_of_bind hok
  obtain rfl := Except.ok.inj hparser
  exact ⟨slots, r, done, hdone, rfl, rfl, rfl⟩

/-- The parser of a sound graph does what its states stand for; all nodes that
are reached have one. -/
theorem image_of_ofGraph (hg : g.Sound)
    (hok : ofGraph g root symbolPrefix options = .ok parser) :
    ∃ spans l, g.allocateSpans root = .ok spans
      ∧ parser.Image ⟨g, options, spans⟩ root
        (translation g root symbolPrefix options) l
      ∧ root < g.size ∧ l.lands root parser.root
      ∧ ∀ n, g.Reaches root n → ∃ s, translation g root symbolPrefix options n
          = some s := by
  obtain ⟨slots, r, done, hdone, hmachine, hroot, rfl⟩ :=
    assembled_of_ofGraph hok
  obtain ⟨spans, roles, hspans, htracks, hslots, hr, hlt⟩ :=
    Assembly.assembled_tracks hg hdone
  have hentry : translation g root symbolPrefix options = done.stateOf? := by
    funext n
    unfold translation
    rw [hdone]
  have hstart : Assembly.Redirected ⟨g, options, spans⟩ done roles
      done.machine := by
    refine ⟨rfl, rfl, fun s role hs => ?_⟩
    have hext : (done.layout roles).Extends
        (done.onward g roles done.machine) :=
      ⟨Nat.le_refl _, fun _ _ => rfl, fun _ _ h => h, fun n s h =>
        ⟨n, .refl, h⟩⟩
    exact hext.realizes (htracks.settled s role hs not_false)
  have hend :=
    Machine.skipForwarding_keeps (Assembly.keeps_redirected htracks) hstart r
    (done.machine.enumerate r)
  rw [← hmachine] at hend
  have hext : (done.layout roles).Extends
      (done.onward g roles parser.machine) := by
    refine ⟨Nat.le_of_eq (congrArg Array.size hend.codes.symm), fun c _ => ?_,
      fun _ _ h => h,
      fun n s h => ⟨n, .refl, h⟩⟩
    show parser.machine.codes.getD c default
      = done.machine.codes.getD c default
    rw [hend.codes]
  refine ⟨spans, done.onward g roles parser.machine, hspans, ?_, hlt, ?_,
    fun n hn => ?_⟩
  · rw [hentry]
    exact {
      machine := rfl
      lands := fun _ _ => Iff.rfl
      size := htracks.size.trans hend.size.symm
      realizes := hend.realizes
      entered := htracks.entered
      allowed := htracks.allowed
      distinct := by
        unfold Machine.code
        rw [hend.codes]
        exact htracks.distinct
      slots := hslots.imp fun _ _ hslot => hslot.extend hext }
  · rw [hroot]
    refine Machine.forwardRoot_keeps _ ⟨root, .refl, hr⟩ fun s next hs hnext =>
      ?_
    exact (Assembly.redirects_of_forwardTarget htracks hend hnext).lands root
      hs
  · rw [hentry]
    exact htracks.reaches hg hr hn

end Parser

end Bytewise

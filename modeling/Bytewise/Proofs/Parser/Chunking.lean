/-
Chunks do not matter to the parsers of graphs.

Which slots may be open at a state, and for whom, is read off the graph:
those of the spans that some path of edges leaves open at the node of the
state (`openSlots`). Spans that are open together have slots of their own,
and the check of ends sees to it that a span is only ended where it may be
open, so no span gets hold of the bytes of another. With that a parser is
disciplined, and its runs can be cut anywhere.
-/
import Mathlib
import Bytewise.Proofs.Execution.Chunks
import Bytewise.Proofs.Graph.Slots
import Bytewise.Proofs.Graph.SpanEnds
import Bytewise.Proofs.Parser.Edges

namespace Bytewise

/-- The slots of the spans that some path leaves open at the node of a state,
with their callbacks. -/
def Layout.openSlots (l : Layout) (bp : Blueprint) (root : NodeId) :
    Parser.SlotLabel :=
  fun s slot callback => ∃ role span before, l.roles[s]? = some role
    ∧ bp.graph.Arrives root role.node before ∧ span ∈ before
    ∧ bp.spans.slot? span = some slot
    ∧ l.machine.Compiles (bp.graph.code (bp.graph.spanCallback span)) callback

-- =============================================================== paths

namespace Graph

variable {g : Graph} {root a : NodeId} {span : SpanId} {before : Set SpanId}

/-- A span that is open before a node is not started there. -/
theorem Arrives.notStarted (h : g.Arrives root a before)
    (hends : g.EndsChecked root)
    (hopen : span ∈ before) : (g.node a).kind ≠ .spanStart span := by
  cases h with
  | root => exact hopen.elim
  | @step b _ _ hpath leads =>
      obtain ⟨hcarries, hnot⟩ := hpath.carries hopen
      exact hends.once b span a hcarries hnot leads

/-- With a span that is open where another is ended, that other may be open on
the way there. -/
theorem Arrives.carriedTogether (h : g.Arrives root a before)
    (hends : g.EndsChecked root) (hopen : span ∈ before)
    (hchecked : ¬ g.Unchecked a) {other : SpanId}
    (hkind : (g.node a).kind = .spanEnd other) :
    ∃ b, g.Carries root b span ∧ g.Carries root b other := by
  cases h with
  | root => exact hopen.elim
  | @step b _ _ hpath leads =>
      exact ⟨b, (hpath.carries hopen).1, hends.ended b a other hpath.reaches
        leads hchecked hkind⟩

end Graph

-- ============================================================== states

namespace Layout

variable {l : Layout} {bp : Blueprint} {root : NodeId} {role : Role}
  {state : Machine.State}

/-- A state that opens a span stands for a node that starts it. -/
theorem Realizes.spanStart (h : l.Realizes bp role state) {slot : SlotId}
    {callback : CodeId} (hkind : state.kind = .spanStart slot callback) :
    ∃ span, (bp.graph.node role.node).kind = .spanStart span
      ∧ bp.spans.slot? span = some slot
      ∧ l.machine.Compiles (bp.graph.code (bp.graph.spanCallback span))
          callback := by
  have hfits := h.kindFits (by rw [hkind]; exact id)
  rw [hkind] at hfits
  exact hfits

/-- A state that closes a span stands for a node that ends it, and goes on from
there. -/
theorem Realizes.spanEnd (h : l.Realizes bp role state) {slot : SlotId}
    {callback : CodeId} (hkind : state.kind = .spanEnd slot callback) :
    ∃ span, (bp.graph.node role.node).kind = .spanEnd span
      ∧ bp.spans.slot? span = some slot
      ∧ l.machine.Compiles (bp.graph.code (bp.graph.spanCallback span))
        callback
      ∧ ¬ bp.graph.Unchecked role.node := by
  cases h with
  | @whole n _ kind edges otherwise ends =>
      rw [hkind] at kind
      obtain ⟨span, hnode, hslot, hcode⟩ := kind
      refine ⟨span, hnode, hslot, hcode, ?_⟩
      intro hor
      rcases hor with ⟨other, hstart⟩ | hterminal
      · have hstart : (bp.graph.node n).kind = .spanStart other := hstart
        rw [hnode] at hstart
        cases hstart
      · obtain ⟨_, hnone⟩ := Bool.and_eq_true_iff.mp hterminal
        obtain ⟨_, code, reason, herror⟩ :=
          ends (Option.isNone_iff_eq_none.mp hnone)
        rw [hnode] at herror
        cases herror
  | part transform keyed closed =>
      have hdispatches := keyed.dispatches
      rw [hkind] at hdispatches
      exact hdispatches.elim

/-- The state of a node that ends a span closes it. -/
theorem Realizes.ends_of_node (h : l.Realizes bp role state) {span : SpanId}
    (hnode : (bp.graph.node role.node).kind = .spanEnd span) {slot : SlotId}
    (hslot : bp.spans.slot? span = some slot) :
    ∃ callback, state.kind = .spanEnd slot callback := by
  cases h with
  | @whole n _ kind edges otherwise ends =>
      have hnode : (bp.graph.node n).kind = .spanEnd span := hnode
      cases hkind : state.kind with
      | spanEnd slot' callback =>
          rw [hkind] at kind
          obtain ⟨span', hspan', hslot', _⟩ := kind
          obtain rfl := NodeKind.spanEnd.inj (hspan'.symm.trans hnode)
          obtain rfl := Option.some.inj (hslot'.symm.trans hslot)
          exact ⟨callback, rfl⟩
      | empty =>
          rw [hkind] at kind
          obtain ⟨⟨t, ht⟩, _⟩ := kind
          rw [hnode] at ht
          cases ht
      | invoke callee =>
          rw [hkind] at kind
          obtain ⟨ref, hinvoke, _⟩ := kind
          rw [hnode] at hinvoke
          cases hinvoke
      | spanStart slot' callback =>
          rw [hkind] at kind
          obtain ⟨span', hstart, _⟩ := kind
          rw [hnode] at hstart
          cases hstart
      | error code reason =>
          rw [hkind] at kind; exact nomatch hnode.symm.trans kind
      | pause code reason =>
          rw [hkind] at kind; exact nomatch hnode.symm.trans kind
      | consume field =>
          rw [hkind] at kind; exact nomatch hnode.symm.trans kind
      | _ => rw [hkind] at kind; exact kind.elim
  | part transform keyed closed =>
      exact nomatch hnode.symm.trans transform

/-- A state that stays stands for a node whose edges do not consume. -/
theorem Realizes.stays (hg : bp.graph.Sound) (h : l.Realizes bp role state)
    (hkind : state.kind.Stays) :
    ∀ edge ∈ state.allEdges, edge.noAdvance = true := by
  intro edge hedge
  cases h with
  | @whole n _ kind edges otherwise ends =>
      rcases List.mem_append.mp hedge with hedge | hother
      · obtain ⟨_, _, _, hstays, _⟩ := edges.made edge hedge
        exact hstays
      · have hother : state.otherwise = some edge :=
          Option.mem_toList.mp hother
        cases hnode : (bp.graph.node n).otherwise with
        | none =>
            rw [(ends hnode).1] at hother
            cases hother
        | some e =>
            obtain ⟨e', he', hsame, _⟩ := otherwise e hnode
            obtain rfl := Option.some.inj (he'.symm.trans hother)
            have hmem : e ∈ (bp.graph.node n).allEdges :=
              Graph.mem_allEdges.mpr (Or.inr hnode)
            obtain ⟨_, _, hfits⟩ :=
              (hg.nodes n (Graph.lt_of_mem_allEdges hmem)).otherwise e hnode
            rw [hsame]
            cases hstate : state.kind with
            | consume field =>
                rw [hstate] at kind
                have hconsume : (bp.graph.node n).kind = .consume field := kind
                rw [hconsume] at hfits
                exact hfits
            | invoke callee =>
                rw [hstate] at kind
                obtain ⟨ref, hinvoke, _⟩ := kind
                rw [hinvoke] at hfits
                exact hfits
            | _ =>
                rw [hstate] at hkind
                exact hkind.elim
  | part transform keyed closed =>
      exact absurd keyed.dispatches hkind.not_dispatches

end Layout

-- ============================================================== labels

namespace Parser

variable {parser : Parser} {bp : Blueprint} {root : NodeId}
  {entry : NodeId → Option StateId} {l : Layout} {s : StateId} {role : Role}
  {span : SpanId} {slot : SlotId} {callback : CodeId}

/-- A span that is open behind a node is open where the edges of its states
lead. -/
theorem Image.openSlots_follow (h : parser.Image bp root entry l)
    (hg : bp.graph.Sound) (hrole : l.roles[s]? = some role)
    {before : Set SpanId} (hpath : bp.graph.Arrives root role.node before)
    (hspan : span ∈ bp.graph.openAfter role.node before)
    (hslot : bp.spans.slot? span = some slot)
    (hcode : l.machine.Compiles (bp.graph.code (bp.graph.spanCallback span))
      callback) :
    ∀ edge ∈ (parser.machine.state s).allEdges,
        l.openSlots bp root edge.target slot callback := by
  intro edge hedge
  have hallowed := h.allowed role (List.mem_of_getElem? hrole)
  cases (h.realizes s role hrole).along hg hallowed hedge with
  | @inside t hpart =>
      -- the node is a match node, so the same spans are open before it and
      -- behind it
      cases h.realizes _ _ hpart with
      | part transform keyed closed =>
          refine ⟨_, span, before, hpart, hpath, ?_, hslot, hcode⟩
          unfold Graph.openAfter at hspan
          rw [transform] at hspan
          exact hspan
  | @edge e made value passed lands =>
      obtain ⟨role', hrole', hforwards⟩ := h.landed lands
      have hpath' := hforwards.arrives (hpath.step (Graph.leads_of_edge made))
      exact ⟨role', span, _, hrole', hpath', hspan, hslot, hcode⟩

/-- A code is compiled once. -/
theorem Image.compiles_unique (h : parser.Image bp root entry l) {code : Code}
    {c c' : CodeId} (hc : l.machine.Compiles code c)
    (hc' : l.machine.Compiles code c') :
    c = c' := by
  obtain ⟨hlt, hkey, _⟩ := hc
  obtain ⟨hlt', hkey', _⟩ := hc'
  rw [h.machine] at hlt hkey hlt' hkey'
  exact h.distinct c c' hlt hlt' (hkey.trans hkey'.symm)

/-- The slot of a span is one of the parser's, and lists the callback of the
span. -/
theorem Image.listedSlot (h : parser.Image bp root entry l)
    (hslots : bp.graph.SlotsAllocated root bp.spans)
    (hslot : bp.spans.slot? span = some slot)
    (hcode : l.machine.Compiles (bp.graph.code (bp.graph.spanCallback span))
      callback) :
    ∃ hlt : slot < parser.slots.length, callback ∈ parser.slots[slot] := by
  obtain ⟨sharing, hsharing, hmem⟩ := hslots.listed span slot hslot
  have hlt := (List.getElem?_eq_some_iff.mp hsharing).1
  rw [h.slots.length_eq] at hlt
  have hused : Assembly.IsSlot l bp sharing parser.slots[slot] := by
    have hboth := h.slots.get (h.slots.length_eq.symm ▸ hlt) hlt
    have hget := (List.getElem?_eq_some_iff.mp hsharing).2
    rw [List.get_eq_getElem, List.get_eq_getElem, hget] at hboth
    exact hboth
  obtain ⟨c, hc, hcode'⟩ := hused.complete span hmem
  obtain rfl := h.compiles_unique hcode hcode'
  exact ⟨hlt, hc⟩

/-- A slot that is opened is one of the parser's, and keeps no callback if it
has only one. -/
theorem Image.knownSlot (h : parser.Image bp root entry l)
    (hslots : bp.graph.SlotsAllocated root bp.spans)
    (hslot : bp.spans.slot? span = some slot)
    (hcode : l.machine.Compiles (bp.graph.code (bp.graph.spanCallback span))
      callback) :
    slot < parser.slots.length
      ∧ (parser.isSharedSlot slot = false →
        (parser.slots[slot]?).bind (·.head?) = some callback) := by
  obtain ⟨hlt, hc⟩ := h.listedSlot hslots hslot hcode
  have hthere : parser.slots[slot]? = some parser.slots[slot] :=
    List.getElem?_eq_getElem hlt
  refine ⟨hlt, fun halone => ?_⟩
  unfold isSharedSlot at halone
  rw [hthere] at halone ⊢
  have hlen : ¬ 1 < parser.slots[slot].length := of_decide_eq_false halone
  -- of one callback or none, with this one among them
  generalize parser.slots[slot] = callbacks at hc hlen
  match callbacks with
  | [] => cases hc
  | [only] =>
      rw [List.mem_singleton.mp hc]
      rfl
  | _ :: _ :: rest =>
      simp only [List.length_cons] at hlen
      omega

-- ========================================================== discipline

/-- The parser of a graph passes values where they are used, and its spans do
not get into each other's way. -/
theorem Image.disciplined (h : parser.Image bp root entry l)
    (hg : bp.graph.Sound) (hends : bp.graph.EndsChecked root)
    (hslots : bp.graph.SlotsAllocated root bp.spans) :
    parser.Disciplined (l.openSlots bp root) := by
  have hstarts : ∀ s slot callback, (parser.machine.state s).kind
      = .spanStart slot callback →
      s < parser.machine.size := by
    intro s slot callback hkind
    by_contra hge
    rw [Machine.state_of_ge (Nat.not_lt.mp hge)] at hkind
    cases hkind
  exact {
    value := fun s edge hedge htakes => by
      obtain ⟨role, hrole, hallowed, hrealizes⟩ :=
        h.role_of_lt (Machine.lt_of_mem_allEdges hedge)
      cases hrealizes.along hg hallowed hedge with
      | @inside t hpart =>
          obtain ⟨callee, hkind, _⟩ := htakes
          obtain ⟨ref, hinvoke, _⟩ := h.invoked hpart hkind
          cases h.realizes _ _ hpart with
          | part transform keyed closed =>
              exact nomatch transform.symm.trans hinvoke
      | @edge e made value passed lands =>
          obtain ⟨ref, hkind, hvalue⟩ := h.takesValue hg lands htakes
          have hfault :=
            (hg.nodes _ (Graph.lt_of_mem_allEdges made)).values e made
          rw [hkind, ← value] at hfault
          have hsome := Graph.value_of_targetFault hfault hvalue
          exact ⟨hsome, passed hsome⟩
    stays := fun s edge hedge hkind => by
      obtain ⟨role, _, _, hrealizes⟩ :=
        h.role_of_lt (Machine.lt_of_mem_allEdges hedge)
      exact hrealizes.stays hg hkind edge hedge
    closed := fun s slot callback hkind other hopen => by
      obtain ⟨role, span, before, hrole, hpath, hmem, hslot, _⟩ := hopen
      obtain ⟨span', hnode, hslot', _⟩ :=
        (h.realizes s role hrole).spanStart hkind
      have hcarries : bp.graph.Carries root role.node span :=
        ⟨before, hpath, Or.inl hmem⟩
      obtain rfl :=
        hslots.apart _ _ _ _ hcarries (Graph.carries_start hpath.reaches hnode)
          hslot
        hslot'
      exact hpath.notStarted hends hmem hnode
    known := fun s slot callback hkind => by
      obtain ⟨role, _, _, hrealizes⟩ :=
        h.role_of_lt (hstarts s slot callback hkind)
      obtain ⟨span, _, hslot, hcode⟩ := hrealizes.spanStart hkind
      exact h.knownSlot hslots hslot hcode
    ended := fun s slot callback hkind other hopen => by
      obtain ⟨role, span, before, hrole, hpath, hmem, hslot, hcode⟩ := hopen
      obtain ⟨span', hnode, hslot', hcode', hchecked⟩ :=
        (h.realizes s role hrole).spanEnd hkind
      obtain ⟨a, ha, ha'⟩ := hpath.carriedTogether hends hmem hchecked hnode
      obtain rfl := hslots.apart _ _ _ _ ha ha' hslot hslot'
      exact h.compiles_unique hcode hcode'
    opened := fun s slot callback hkind => by
      obtain ⟨role, hrole, hallowed, hrealizes⟩ :=
        h.role_of_lt (hstarts s slot callback hkind)
      obtain ⟨span, hnode, hslot, hcode⟩ := hrealizes.spanStart hkind
      obtain ⟨before, hpath⟩ := hallowed.reached.arrives
      have hnot : (bp.graph.node role.node).kind ≠ .spanEnd span := by
        rw [hnode]
        exact fun heq => nomatch heq
      have hspan : span ∈ bp.graph.openAfter role.node before :=
        Graph.mem_openAfter.mpr ⟨Or.inr hnode, hnot⟩
      exact h.openSlots_follow hg hrole hpath hspan hslot hcode
    kept := fun s slot callback hopen hkind => by
      obtain ⟨role, span, before, hrole, hpath, hmem, hslot, hcode⟩ := hopen
      have hnot : (bp.graph.node role.node).kind ≠ .spanEnd span :=
        fun hnode => by
        obtain ⟨other, hother⟩ :=
          (h.realizes s role hrole).ends_of_node hnode hslot
        exact hkind other hother
      have hspan : span ∈ bp.graph.openAfter role.node before :=
        Graph.mem_openAfter.mpr ⟨Or.inl hmem, hnot⟩
      exact h.openSlots_follow hg hrole hpath hspan hslot hcode }

/-- However its input is cut into chunks, the parser of a graph comes to what
it comes to on one chunk. -/
theorem chunks_agree {g : Graph} {symbolPrefix : String} {options : Options}
    (hg : g.Built) (hok : ofGraph g root symbolPrefix options = .ok parser)
    (host : Host) (first : List UInt8) (rest : List (List UInt8)) {o : Outcome}
    (hone : parser.Feeds host [] parser.init [first ++ rest.flatten] o) :
    (∃ o', parser.Feeds host [] parser.init (first :: rest) o')
      ∧ ∀ o', parser.Feeds host [] parser.init (first :: rest) o' →
          Agree o o' := by
  obtain ⟨spans, l, hspans, himage, _⟩ := image_of_ofGraph hg.sound hok
  have hdisciplined :=
    himage.disciplined hg.sound (hg.sound.endsChecked hspans)
    (hg.sound.slotsAllocated hspans)
  obtain ⟨o', hfeeds, hagree⟩ := hdisciplined.chunking hone
  refine ⟨⟨o', hfeeds⟩, fun o'' hfeeds' => ?_⟩
  rw [hfeeds'.unique hfeeds]
  exact hagree

/-- "ab" again and again, each time marked by a span. -/
def pairs : Graph :=
  Build.replay [.externalCode "on_pair" .span, .span 0, .node "pair",
    .spanStart 0 (some 0),
    .spanEnd 0 (some 1), .matchKey 0 [0x61, 0x62] 2, .skipTo 0 0] {}

theorem built_pairs : pairs.Built :=
  Graph.Built.new.replay (by decide)

/-- The parser of the pairs. -/
def pairsParser : Parser where
  symbolPrefix := "p"
  machine.states := #[
    { name := "p__n_span_start_on_pair", nodeName := "span_start_on_pair",
      kind := .spanStart 0 0
      otherwise := some (.otherwise 1 true) },
    { name := "p__n_pair", nodeName := "pair", kind := .sequence
      edges := [⟨some (.bytes [0x61, 0x62]), 2, false, none⟩]
      otherwise := some (.otherwise 1 false) },
    { name := "p__n_span_end_on_pair", nodeName := "span_end_on_pair",
      kind := .spanEnd 0 0
      otherwise := some (.otherwise 0 true) }]
  machine.codes := #[⟨"on_pair", .external .span⟩]
  root := 0
  slots := [[0]]
  resumable := [0, 1]

theorem ofGraph_pairs : ofGraph pairs 1 "p" {} = .ok pairsParser := by
  cbv

/-- A host that answers zero and leaves the fields alone. -/
def silent : Host where
  answer _ _ := 0
  operate _ fields _ := (0, fields)

/-- A pair is read in one chunk, and as well if it is cut in two. -/
theorem chunks_agree_pairs :
    ∃ o, pairsParser.Feeds silent [] pairsParser.init [[0x61, 0x62]] o
    ∧ (∃ o', pairsParser.Feeds silent [] pairsParser.init
      [[0x61], [], [0x62]] o')
      ∧ ∀ o', pairsParser.Feeds silent [] pairsParser.init [[0x61], [], [0x62]]
          o' → Agree o o' := by
  have hone : ∃ o, pairsParser.Feeds silent [] pairsParser.init
      [[0x61, 0x62]] o :=
    ⟨_, .chunk (.next rfl (.next rfl (.next rfl (.suspend rfl)))) .done⟩
  obtain ⟨o, hone⟩ := hone
  exact ⟨o, hone, chunks_agree built_pairs ofGraph_pairs silent [0x61]
    [[], [0x62]] hone⟩

end Parser

end Bytewise

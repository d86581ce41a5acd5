/-
Which graphs have a parser.

What a parser is compiled from can be read off it: each of its states
stands for a node, so the node had what its state has. That gives one
direction; the other is that nothing else can fail.
-/
import Bytewise.Proofs.Parser.Chunking
import Bytewise.Proofs.Parser.Succeeds

namespace Bytewise

namespace Layout

variable {l : Layout} {bp : Blueprint} {node : Node} {kind : Machine.StateKind}
  {span : SpanId}

theorem KindFits.invoke (h : l.KindFits bp node kind) {ref : CodeRef}
    (hnode : node.kind = .invoke ref) :
    ∃ callee, kind = .invoke callee
        ∧ l.machine.Compiles (bp.graph.code ref) callee := by
  cases kind <;> simp_all [KindFits]

theorem KindFits.consume (h : l.KindFits bp node kind) {field : String}
    (hnode : node.kind = .consume field) : kind = .consume field := by
  cases kind <;> simp_all [KindFits]

theorem KindFits.spanStart (h : l.KindFits bp node kind)
    (hnode : node.kind = .spanStart span) :
    ∃ slot callback, kind = .spanStart slot callback
      ∧ bp.spans.slot? span = some slot
      ∧ l.machine.Compiles (bp.graph.code (bp.graph.spanCallback span))
          callback := by
  cases kind <;> simp_all [KindFits]

theorem KindFits.spanEnd (h : l.KindFits bp node kind)
    (hnode : node.kind = .spanEnd span) :
    ∃ slot callback, kind = .spanEnd slot callback
      ∧ bp.spans.slot? span = some slot
      ∧ l.machine.Compiles (bp.graph.code (bp.graph.spanCallback span))
          callback := by
  cases kind <;> simp_all [KindFits]

end Layout

/-- A trie that covers a key which stays unread does not go on from that
key. -/
theorem Trie.Covers.peeks_alone {t : Trie} {entries : List TrieEntry}
    (h : Trie.Covers t entries) {e o : TrieEntry} (he : e ∈ entries)
    (ho : o ∈ entries) {b : UInt8} {key : List UInt8} (hkey : e.key = [b])
    (hpeek : e.noAdvance = true) (hokey : o.key = b :: key) :
    o.noAdvance = true := by
  cases h with
  | leaf ended =>
      rw [List.mem_singleton.mp ho] at hokey
      rw [hokey] at ended
      cases ended
  | sequence _ _ _ consumes _ =>
      rw [consumes e he] at hpeek
      cases hpeek
  | single _ bytes alike _ _ _ =>
      have hmem : ∀ x ∈ entries, (∃ k, x.key = b :: k) →
          x.dropKey 1 ∈ TrieEntry.derive b entries :=
        fun x hx hk => TrieEntry.mem_derive.mpr ⟨x, hx, hk, rfl⟩
      obtain ⟨x, hx, rfl⟩ :=
        (bytes b).mp (List.ne_nil_of_mem (hmem e he ⟨[], hkey⟩))
      have hestays := alike x hx _ (hmem e he ⟨[], hkey⟩)
      have hostays := alike x hx _ (hmem o ho ⟨key, hokey⟩)
      exact hostays.trans (hestays.symm.trans hpeek)

namespace Parser

variable {parser : Parser} {bp : Blueprint} {root : NodeId}
  {entry : NodeId → Option StateId} {l : Layout}

/-- A node that is reached and reads no bytes has a state that does what the
node becomes. -/
private theorem Image.kindFits (h : parser.Image bp root entry l)
    (hall : ∀ n, bp.graph.Reaches root n → ∃ s, entry n = some s) {n : NodeId}
    (hreach : bp.graph.Reaches root n)
    (hkind : ∀ t, (bp.graph.node n).kind ≠ .dispatch t) :
    ∃ s, l.KindFits bp (bp.graph.node n) (parser.machine.state s).kind := by
  obtain ⟨s, hs⟩ := hall n hreach
  exact ⟨s, h.kindFits_of_entry hs hkind⟩

/-- A code that the graph uses is compiled. -/
private theorem Image.compiles (h : parser.Image bp root entry l)
    (hall : ∀ n, bp.graph.Reaches root n → ∃ s, entry n = some s) {code : Code}
    (huse : bp.graph.Uses root code) : ∃ id, l.machine.Compiles code id := by
  cases huse with
  | invoke reached kind =>
      obtain ⟨s, hfits⟩ := h.kindFits hall reached fun t ht =>
        nomatch kind.symm.trans ht
      obtain ⟨callee, _, hcode⟩ := hfits.invoke kind
      exact ⟨callee, hcode⟩
  | span reached kind =>
      obtain ⟨s, hfits⟩ := h.kindFits hall reached fun t ht =>
        nomatch kind.symm.trans ht
      obtain ⟨_, callback, _, _, hcode⟩ := hfits.spanStart kind
      exact ⟨callback, hcode⟩

/-- The keys of a match node that has a trie leave no byte that another key
takes. -/
private theorem Image.peeks (h : parser.Image bp root entry l)
    (hg : bp.graph.Sound) {n : NodeId} {s : StateId} (hs : entry n = some s)
    {t : Option Transform} (hkind : (bp.graph.node n).kind = .dispatch t)
    {e o : Edge} (he : e ∈ (bp.graph.node n).edges)
    (ho : o ∈ (bp.graph.node n).edges) (hpeek : e.noAdvance = true) {b : UInt8}
    (hkey : e.key = some (.bytes [b]))
    (hfirst : o.firstByte? = some b) : o.key = e.key := by
  have hn := Graph.lt_of_mem_allEdges (Graph.mem_allEdges.mpr (Or.inl he))
  obtain ⟨role, _, henters⟩ := h.entered n s hs
  cases henters with
  | whole hbare =>
      rw [hbare t hkind] at he
      cases he
  | part hbuilds =>
      have hfits := (hg.nodes n hn).keyed o ho
      rw [hkind] at hfits
      obtain ⟨bs, hbs, hne, hshort⟩ := hfits
      obtain ⟨c, key, rfl⟩ := List.ne_nil_iff_exists_cons.mp hne
      obtain rfl : c = b := by
        simpa [Edge.firstByte?, EdgeKey.firstByte?, hbs] using hfirst
      have hmem : ∀ edge ∈ (bp.graph.node n).edges, ∀ bs,
          edge.key = some (.bytes bs) →
          ⟨bs, edge.target, edge.noAdvance, edge.value⟩
            ∈ (bp.graph.node n).entries.mergeSort TrieEntry.keyLE := by
        intro edge hedge bs hkey
        refine (List.mergeSort_perm _ _).mem_iff.mpr
          (mem_entries.mpr ⟨edge, hedge, ?_⟩)
        exact entry?_eq_some.mpr ⟨hkey, rfl, rfl, rfl⟩
      have hstays := (hbuilds.covers hg hn).peeks_alone (hmem e he _ hkey)
        (hmem o ho _ hbs) rfl
        hpeek rfl
      have hlen := (hshort hstays).1
      rw [List.length_cons] at hlen
      rw [hbs, hkey, List.length_eq_zero_iff.mp (Nat.succ.inj hlen)]

/-- A graph with a parser breaks no rule. -/
theorem accepted_of_image (h : parser.Image bp root entry l)
    (hg : bp.graph.Sound) (hroot : root < bp.graph.size)
    (hspans : bp.graph.allocateSpans root = .ok bp.spans)
    (hall : ∀ n, bp.graph.Reaches root n → ∃ s, entry n = some s) :
    bp.graph.Accepted root where
  otherwise n hreach hnone := by
    obtain ⟨s, hs⟩ := hall n hreach
    obtain ⟨role, hrole, henters⟩ := h.entered n s hs
    have hrealizes := h.realizes s role hrole
    cases henters with
    | whole _ =>
        cases hrealizes with
        | whole _ _ _ ends => exact (ends hnone).2
    | part hbuilds =>
        cases hrealizes with
        | part _ _ closed =>
            have hn := hg.reaches_lt hroot hreach
            obtain ⟨edge, _, hedge, _⟩ :=
              Assembly.closed_of_builds hg hn hbuilds closed
            rw [hnone] at hedge
            cases hedge
  peeks n hreach hkind e he hpeek b hkey o ho hne hfirst := by
    obtain ⟨t, hkind⟩ := hkind
    obtain ⟨s, hs⟩ := hall n hreach
    exact hne (h.peeks hg hs hkind he ho hpeek hkey hfirst)
  codes c d hc hd hcext hdext hname := by
    obtain ⟨i, hi⟩ := h.compiles hall hc
    obtain ⟨j, hj⟩ := h.compiles hall hd
    have hkeys : c.key = d.key :=
      Code.key_eq_iff.mpr (Or.inl ⟨hcext, hdext, hname⟩)
    -- equal keys have one code, and its operation is that of both
    have hij : i = j := by
      have hkeys := hi.2.1.trans (hkeys.trans hj.2.1.symm)
      rw [h.machine] at hi hj hkeys
      exact h.distinct i j hi.1 hj.1 hkeys
    subst hij
    exact hi.kind.symm.trans hj.kind
  ends n span hreach hkind := by
    have hplain : ∀ t, (bp.graph.node n).kind ≠ .dispatch t := by simp [hkind]
    obtain ⟨s, hfits⟩ := h.kindFits hall hreach hplain
    obtain ⟨slot, _, _, hslot, _⟩ := hfits.spanEnd hkind
    exact (hg.exists_slot hspans).mp ⟨slot, hslot⟩

variable {g : Graph} {symbolPrefix : String} {options : Options}

/-- A graph whose options, loops and spans are in order and which breaks no
rule is assembled, and the assembly is in form. -/
theorem assembled_of_accepted (hg : g.Sound)
    (hoptions : options.validate = .ok ())
    (hloops : g.checkLoops root = .ok ()) {spans : SpanAllocation}
    (hspans : g.allocateSpans root = .ok spans) (hacc : g.Accepted root) :
    ∃ r done, assembled g root symbolPrefix options = .ok (r, done)
      ∧ Assembly.Formed ⟨g, options, spans⟩ root done := by
  obtain ⟨r, done, hrun, hformed, _⟩ :=
    @Assembly.assemble_forms ⟨g, options, spans⟩ root _ hg hacc
    hspans (Assembly.formed_start _ root symbolPrefix)
  refine ⟨r, done, ?_, hformed⟩
  unfold assembled
  rw [hoptions, hloops, hspans]
  exact hrun

/-- What a parser was made from: the options, loops and spans were in order,
and the graph breaks no rule. -/
theorem accepted_of_ofGraph (hg : g.Sound)
    (hok : ofGraph g root symbolPrefix options = .ok parser) :
    options.validate = .ok () ∧ g.checkLoops root = .ok ()
      ∧ (∃ spans, g.allocateSpans root = .ok spans) ∧ g.Accepted root := by
  obtain ⟨_, _, _, hassembled, _⟩ := assembled_of_ofGraph hok
  obtain ⟨_, hoptions, hrest⟩ := ok_of_bind hassembled
  obtain ⟨_, hloops, _⟩ := ok_of_bind hrest
  obtain ⟨spans, l, hspans, himage, hroot, _, hall⟩ := image_of_ofGraph hg hok
  exact ⟨hoptions, hloops, ⟨spans, hspans⟩, accepted_of_image himage hg
    hroot hspans hall⟩

/-- A graph has a parser if and only if its options can be used, no cycle is
walked without reading, its spans have slots, and it breaks no rule. -/
theorem ofGraph_ok_iff (hg : g.Built) (root : NodeId) (symbolPrefix : String)
    (options : Options) :
    (∃ parser, ofGraph g root symbolPrefix options = .ok parser)
      ↔ options.validate = .ok () ∧ g.checkLoops root = .ok ()
        ∧ (∃ spans, g.allocateSpans root = .ok spans) ∧ g.Accepted root := by
  constructor
  · rintro ⟨parser, hok⟩
    exact accepted_of_ofGraph hg.sound hok
  · rintro ⟨hoptions, hloops, ⟨spans, hspans⟩, hacc⟩
    obtain ⟨⟨⟨slots, r⟩, done⟩, hassembled⟩ :
        ∃ done, assembled g root symbolPrefix options = .ok done := by
      obtain ⟨r, done, hassembled, _⟩ :=
        assembled_of_accepted hg.sound hoptions hloops hspans hacc
      exact ⟨(r, done), hassembled⟩
    unfold ofGraph
    rw [hassembled]
    exact ⟨_, rfl⟩

/-- The pairs have a parser, and so they break no rule. -/
theorem pairs_accepted : Options.validate {} = .ok ()
    ∧ pairs.checkLoops 1 = .ok ()
    ∧ (∃ spans, pairs.allocateSpans 1 = .ok spans) ∧ pairs.Accepted 1 :=
  (ofGraph_ok_iff built_pairs 1 "p" {}).mp ⟨pairsParser, ofGraph_pairs⟩

end Parser

end Bytewise

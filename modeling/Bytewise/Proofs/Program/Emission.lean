/-
Programs of well-formed parsers.

A body follows the edges of its state that the kind of the state uses, and
in a well-formed parser these are all it has: so the states of the program
are the live states, each once. Nor does a body find anything missing, so
what a program can fail for is a property of the user's that a callback or
a body asks for: that it is not declared, or not an integer.
-/
import Bytewise.Program.OfParser
import Bytewise.Proofs.Parser.WellFormed

namespace Bytewise

open Program

-- ============================================================ emission

namespace Parser

variable {parser : Parser} {s : StateId}

/-- The live states are those that the root leads to. -/
theorem mem_liveStates : s ∈ parser.liveStates ↔ Relation.ReflTransGen
    (Exploration.Edge parser.machine.size fun id =>
      (parser.machine.state id).targets)
    parser.root s :=
  Machine.mem_live

/-- Every node that is reached has a live state that edges to the node may lead
to. -/
theorem Image.live {bp : Blueprint} {root n : NodeId}
    {entry : NodeId → Option StateId} {l : Layout}
    (h : parser.Image bp root entry l) (hg : bp.graph.Sound)
    (hroot : l.lands root parser.root)
    (hn : bp.graph.Reaches root n) : ∃ s ∈ parser.liveStates, l.lands n s := by
  have hstays : ∀ s, s ∈ parser.liveStates →
      ∀ edge ∈ (parser.machine.state s).allEdges,
      edge.target ∈ parser.liveStates := fun s hs edge hedge =>
    mem_liveStates.mpr ((mem_liveStates.mp hs).tail
      ⟨List.mem_map_of_mem hedge, h.inside hg hedge⟩)
  induction hn with
  | refl => exact ⟨parser.root, mem_liveStates.mpr .refl, hroot⟩
  | @tail m k _ hleads ih =>
      obtain ⟨s, hs, hlands⟩ := ih
      obtain ⟨j, hforwards, hentry⟩ := (h.lands m s).mp hlands
      rcases hforwards.cases_head with rfl
        | ⟨i, ⟨_, edge, _, hnone, hother, _, rfl⟩, hrest⟩
      · obtain ⟨role, hrole, henters⟩ := h.entered m s hentry
        exact Assembly.lands_of_leads hg h.realizes hstays hrole
          henters hs hleads
      · -- a node that passes on leads nowhere else
        obtain ⟨e, he, rfl⟩ := Graph.leads_iff_edge.mp hleads
        rcases Graph.mem_allEdges.mp he with he | he
        · rw [hnone] at he
          cases he
        · obtain rfl := Option.some.inj (hother.symm.trans he)
          exact ⟨s, hs, (h.lands _ s).mpr ⟨j, hrest, hentry⟩⟩

/-- A node that is reached and reads no bytes has a live state that does what
the node becomes. -/
theorem Image.live_fits {bp : Blueprint} {root n : NodeId}
    {entry : NodeId → Option StateId} {l : Layout}
    (h : parser.Image bp root entry l) (hg : bp.graph.Sound)
    (hroot : l.lands root parser.root) (hn : bp.graph.Reaches root n)
    (hplain : ∀ t, (bp.graph.node n).kind ≠ .dispatch t) :
    ∃ s ∈ parser.liveStates, l.KindFits bp (bp.graph.node n)
        (parser.machine.state s).kind := by
  obtain ⟨s, hs, hlands⟩ := h.live hg hroot hn
  obtain ⟨k, hforwards, hentry⟩ := (h.lands n s).mp hlands
  rcases hforwards.cases_head with rfl | ⟨_, ⟨t, _, hdispatch, _⟩, _⟩
  · exact ⟨s, hs, h.kindFits_of_entry hentry hplain⟩
  · exact absurd hdispatch (hplain t)

/-- A sequence has one edge, with its literal. -/
theorem Shaped.sequence (h : parser.Shaped s)
    (hkind : (parser.machine.state s).kind = .sequence) : ∃ edge literal,
      (parser.machine.state s).edges = [edge]
      ∧ edge.key = some (.bytes literal) := by
  have hkeys := h.keys
  rw [hkind] at hkeys
  obtain ⟨literal, hone, _⟩ := hkeys
  obtain ⟨edge, hedges, hkey⟩ := List.map_eq_singleton_iff.mp hone
  exact ⟨edge, literal, hedges, hkey⟩

/-- A body follows all edges of a state in shape. -/
theorem Shaped.emittedEdges (h : parser.Shaped s) :
    Program.emittedEdges (parser.machine.state s)
        = (parser.machine.state s).allEdges := by
  have hkeys := h.keys
  have hfinal := h.final
  have hsequence := h.sequence
  unfold Program.emittedEdges Machine.State.allEdges
  generalize parser.machine.state s = state at hkeys hfinal hsequence
  cases hkind : state.kind with
  | invoke callee => rfl
  | single => rfl
  | table => rfl
  | sequence =>
      obtain ⟨edge, _, hedges, _⟩ := hsequence hkind
      rw [hedges]
      rfl
  | error code reason =>
      rw [hkind] at hkeys
      rw [List.map_eq_nil_iff.mp hkeys, hfinal.mpr ⟨code, reason, hkind⟩]
      rfl
  | _ =>
      rw [hkind] at hkeys
      rw [List.map_eq_nil_iff.mp hkeys]
      rfl

/-- The states that are emitted are the live ones. -/
theorem WellFormed.mem_emissionOrder (h : parser.WellFormed) :
    s ∈ emissionOrder parser ↔ s ∈ parser.liveStates := by
  have hsame : ∀ s ∈ parser.liveStates,
      (Program.emittedEdges (parser.machine.state s)).map (·.target)
        = (parser.machine.state s).targets := fun s hs => by
    rw [(h.states s hs).emittedEdges]
    rfl
  rw [emissionOrder, Exploration.mem_fromRoot]
  constructor
  · intro hs
    induction hs with
    | refl => exact List.mem_cons_self
    | @tail y x _ hedge ih =>
        have hedge' : x ∈ (parser.machine.state y).targets :=
          hsame y ih ▸ hedge.1
        exact mem_liveStates.mpr
          ((mem_liveStates.mp ih).tail ⟨hedge', hedge.2⟩)
  · intro hs
    rw [mem_liveStates] at hs
    induction hs with
    | refl => exact .refl
    | @tail y x hpath hedge ih =>
        refine ih.tail ⟨?_, hedge.2⟩
        dsimp only
        rw [hsame y (mem_liveStates.mpr hpath)]
        exact hedge.1

theorem nodup_emissionOrder (parser : Parser) : (emissionOrder parser).Nodup :=
  Exploration.nodup_fromRoot _

end Parser

-- ============================================================ failures

namespace Program

/-- The cause is that a property is not declared, or of no type for what is
done with it. -/
def OfProperty : Cause → Prop
  | .unknownField _ | .unsupportedType .. => True
  | _ => False

variable {parser : Parser} {s : StateId}

/-- Finding a property fails for that property only. -/
theorem property_fails (field : String) :
    FailsWith OfProperty (property parser field) := by
  unfold property
  split
  · exact .ok _
  · exact fun _ h => Except.error.inj h ▸ trivial

/-- A property that is found is one of the parser's, and of the name that is
asked for. -/
theorem named_of_property {field : String} {found : Property}
    (h : property parser field = .ok found) :
    found ∈ parser.properties ∧ found.name = field := by
  unfold property at h
  split at h
  · rename_i first hfind
    obtain rfl := Except.ok.inj h
    have hname := List.find?_some hfind
    exact ⟨List.mem_of_find?_eq_some hfind, eq_of_beq hname⟩
  · cases h

theorem requireInteger_fails (property : Property) (operation : String) :
    FailsWith OfProperty (requireInteger property operation) := by
  unfold requireInteger
  split
  · exact .ok _
  · exact fun _ h => Except.error.inj h ▸ trivial

/-- Checking a code fails for a property only. -/
theorem checkCode_fails (code : Code) :
    FailsWith OfProperty (checkCode parser code) := by
  unfold checkCode
  split
  · exact .ok _
  · exact (property_fails _).bind fun _ _ => requireInteger_fails _ _
  all_goals exact (property_fails _).bind fun _ _ => .ok _

theorem codeName_fails (id : CodeId) :
    FailsWith OfProperty (codeName parser id) :=
  (checkCode_fails _).bind fun _ _ => .ok _

theorem functionOf_fails (code : Code) :
    FailsWith OfProperty (functionOf parser code) := by
  unfold functionOf
  split
  · exact .ok _
  · refine FailsWith.bind ?_ fun _ _ => .ok _
    unfold intrinsicBody
    cases code.kind with
    | mulAdd field options =>
        refine (property_fails field).bind fun property _ => ?_
        split
        · exact .ok _
        · exact fun _ h => Except.error.inj h ▸ trivial
    | _ => exact .ok _

/-- A state in shape that does not stop for good has its otherwise edge. -/
theorem otherwiseOf_fails (h : parser.Shaped s)
    (hkind : ∀ code reason, (parser.machine.state s).kind
      ≠ .error code reason) :
    FailsWith OfProperty (otherwiseOf (parser.machine.state s)) := by
  unfold otherwiseOf
  split
  · exact .ok _
  · rename_i hnone
    obtain ⟨code, reason, herror⟩ := h.final.mp hnone
    exact absurd herror (hkind code reason)

/-- The keys of a list of edges, one by one. -/
theorem key_of_mem {α : Type} {f : α → Machine.Key} {edges : List Machine.Edge}
    {keys : List α} (h : edges.map (·.key) = keys.map (some ∘ f))
    {edge : Machine.Edge} (hedge : edge ∈ edges) :
    ∃ key ∈ keys, edge.key = some (f key) := by
  have hmem : edge.key ∈ edges.map (·.key) := List.mem_map_of_mem hedge
  rw [h] at hmem
  obtain ⟨key, hkey, heq⟩ := List.mem_map.mp hmem
  exact ⟨key, hkey, heq.symm⟩

/-- Keys that fit make no table fail. -/
theorem tableKeys_fails {state : Machine.State}
    (h : state.kind.KeysFit 256 (state.edges.map (·.key)))
    (hkind : state.kind = .table) :
    FailsWith OfProperty (tableKeys state) := by
  rw [hkind] at h
  obtain ⟨groups, hkeys, hfew, _⟩ := h
  refine .mapM fun pair hpair => ?_
  obtain ⟨edge, index⟩ := pair
  obtain ⟨hindex, hedge⟩ := List.mem_zipIdx' hpair
  have hlen : state.edges.length = groups.length := by
    rw [← List.length_map (·.key), hkeys, List.length_map]
  obtain ⟨keys, _, hkey⟩ := key_of_mem hkeys (hedge ▸ List.getElem_mem hindex)
  dsimp only
  rw [hkey]
  dsimp only
  rw [if_pos (by omega)]
  exact .ok _

/-- The body of a state in shape fails for a property if at all. -/
theorem kindBody_fails (h : parser.Shaped s) :
    FailsWith OfProperty (kindBody parser s (parser.machine.state s)) := by
  have hkeys := h.keys
  have hother := otherwiseOf_fails h
  unfold kindBody
  cases hkind : (parser.machine.state s).kind with
  | error code reason => exact .ok _
  | consume field =>
      refine (property_fails field).bind fun property _ => ?_
      refine (requireInteger_fails property "consume").bind fun _ _ => ?_
      exact (hother (by simp [hkind])).bind fun _ _ => .ok _
  | empty => exact (hother (by simp [hkind])).bind fun _ _ => .ok _
  | pause code reason => exact (hother (by simp [hkind])).bind fun _ _ => .ok _
  | invoke callee =>
      rw [hkind] at hkeys
      obtain ⟨codes, hcodes, _⟩ := hkeys
      refine (hother (by simp [hkind])).bind fun _ _ => ?_
      refine (codeName_fails callee).bind fun _ _ => ?_
      refine FailsWith.bind (.mapM fun edge hedge => ?_) fun _ _ => .ok _
      obtain ⟨code, _, hkey⟩ := key_of_mem hcodes hedge
      rw [hkey]
      exact .ok _
  | sequence =>
      obtain ⟨edge, literal, hedges, hkey⟩ := h.sequence hkind
      refine (hother (by simp [hkind])).bind fun _ _ => ?_
      rw [hedges]
      dsimp only
      rw [hkey]
      exact .ok _
  | single =>
      rw [hkind] at hkeys
      obtain ⟨bs, hbs, _⟩ := hkeys
      refine (hother (by simp [hkind])).bind fun _ _ => ?_
      refine FailsWith.bind (.mapM fun edge hedge => ?_) fun _ _ => .ok _
      obtain ⟨b, _, hkey⟩ := key_of_mem hbs hedge
      rw [hkey]
      exact .ok _
  | table =>
      refine (hother (by simp [hkind])).bind fun _ _ => ?_
      exact (tableKeys_fails h.keys hkind).bind fun _ _ => .ok _
  | spanStart slot callback =>
      refine (hother (by simp [hkind])).bind fun _ _ => ?_
      dsimp only
      split
      · exact (codeName_fails callback).bind fun _ _ => .ok _
      · exact .ok _
  | spanEnd slot callback =>
      refine (hother (by simp [hkind])).bind fun _ _ => ?_
      exact (codeName_fails callback).bind fun _ _ => .ok _

/-- A state that is shaped as its kind asks fails for a property only. -/
theorem stateOf_fails (h : parser.Shaped s) (debugHook : Option String) :
    FailsWith OfProperty (stateOf parser debugHook s) :=
  (kindBody_fails h).bind fun _ _ => .ok _

/-- A well-formed parser has a program, or a property is not what it has to
be. -/
theorem ofParser_fails (h : parser.WellFormed)
    (debugHook headerName : Option String) :
    FailsWith OfProperty (ofParser parser debugHook headerName) := by
  unfold ofParser
  refine (FailsWith.forM fun id _ => checkCode_fails _).bind fun _ _ => ?_
  refine (FailsWith.mapM fun s hs => ?_).bind fun states _ => ?_
  · exact stateOf_fails (h.states s (h.mem_emissionOrder.mp hs)) debugHook
  · exact (FailsWith.mapM fun _ _ => functionOf_fails _).bind fun _ _ => .ok _

-- ============================================================== states

/-- What the program of a parser is made of. -/
theorem states_of_ofParser {debugHook headerName : Option String}
    {program : Program}
    (hok : ofParser parser debugHook headerName = .ok program) :
    List.Forall₂ (fun s state => stateOf parser debugHook s = .ok state)
        (emissionOrder parser)
        program.states
      ∧ program.root = parser.root
          ∧ program.stateNames = parser.machine.states.map (·.name) := by
  obtain ⟨_, _, hrest⟩ := ok_of_bind hok
  obtain ⟨states, hstates, hrest⟩ := ok_of_bind hrest
  obtain ⟨_, _, hrest⟩ := ok_of_bind hrest
  obtain rfl := Except.ok.inj hrest
  exact ⟨forall₂_of_mapM hstates, rfl, rfl⟩

/-- The codes whose functions a program has: those of the slots, then those
that bodies mention. -/
def emittedCodes (parser : Parser) : List CodeId :=
  (parser.slots.flatten ++ (emissionOrder parser).flatMap fun id =>
    mentionedCodes parser (parser.machine.state id)).eraseDups

/-- What a program has of its parser. -/
structure Parts (parser : Parser) (debugHook : Option String)
    (program : Program) : Prop where
  symbols : program.symbolPrefix = parser.symbolPrefix
  hook : program.debugHook = debugHook
  slots : program.slots
    = parser.slots.map (·.map fun id => (parser.machine.code id).name)
  checked : ∀ id ∈ parser.slots.flatten,
    checkCode parser (parser.machine.code id) = .ok ()
  matchers : program.matchers.Sublist Transform.all
  states : List.Forall₂ (fun s state => stateOf parser debugHook s = .ok state)
    (emissionOrder parser) program.states
  functions : List.Forall₂
    (fun id function => functionOf parser (parser.machine.code id)
    = .ok function) (emittedCodes parser) program.functions

/-- A program consists of its parts. -/
theorem parts_of_ofParser {debugHook headerName : Option String}
    {program : Program}
    (hok : ofParser parser debugHook headerName = .ok program) :
    Parts parser debugHook program := by
  obtain ⟨⟨⟩, hchecked, hrest⟩ := ok_of_bind hok
  obtain ⟨states, hstates, hrest⟩ := ok_of_bind hrest
  obtain ⟨functions, hfunctions, hrest⟩ := ok_of_bind hrest
  obtain rfl := Except.ok.inj hrest
  exact {
    symbols := rfl
    hook := rfl
    slots := rfl
    checked := fun _ => ok_of_forM hchecked
    matchers := List.filter_sublist
    states := forall₂_of_mapM hstates
    functions := forall₂_of_mapM hfunctions }

end Program

namespace Parser

variable {parser : Parser} {g : Graph} {root : NodeId} {symbolPrefix : String}
  {options : Options}

/-- The codes of a program are those of the slots and those that live bodies
mention. -/
theorem WellFormed.mem_emittedCodes (h : parser.WellFormed) {id : CodeId} :
    id ∈ emittedCodes parser ↔ id ∈ parser.slots.flatten
      ∨ ∃ s ∈ parser.liveStates,
          id ∈ mentionedCodes parser (parser.machine.state s) := by
  simp only [emittedCodes, List.mem_eraseDups, List.mem_append,
    List.mem_flatMap,
    h.mem_emissionOrder]

/-- What the body of a state mentions is used by the graph of the node that it
stands for. -/
theorem uses_of_mentioned {bp : Blueprint} {l : Layout} {role : Role}
    {state : Machine.State} (hg : bp.graph.Sound)
    (hspans : bp.graph.allocateSpans root = .ok bp.spans)
    (h : l.Realizes bp role state) (hallowed : bp.Allows root role)
    {id : CodeId} (hid : id ∈ mentionedCodes parser state) :
    ∃ code, bp.graph.Uses root code ∧ l.machine.Compiles code id := by
  unfold mentionedCodes at hid
  cases hkind : state.kind with
  | invoke callee =>
      rw [hkind] at hid
      obtain rfl := List.mem_singleton.mp hid
      have hfits := h.kindFits (by rw [hkind]; exact not_false)
      rw [hkind] at hfits
      obtain ⟨ref, hnode, hcode⟩ := hfits
      exact ⟨_, .invoke hallowed.reached hnode, hcode⟩
  | spanStart slot callback =>
      obtain ⟨span, hnode, -, hcode⟩ := h.spanStart hkind
      rw [hkind] at hid
      dsimp only at hid
      split at hid
      · obtain rfl := List.mem_singleton.mp hid
        exact ⟨_, .span hallowed.reached hnode, hcode⟩
      · cases hid
  | spanEnd slot callback =>
      obtain ⟨span, -, hslot, hcode, -⟩ := h.spanEnd hkind
      rw [hkind] at hid
      obtain rfl := List.mem_singleton.mp hid
      -- a span that has a slot is started somewhere
      obtain ⟨n, hn, hstart⟩ := (hg.exists_slot hspans).mp ⟨slot, hslot⟩
      exact ⟨_, .span hn hstart, hcode⟩
  | _ =>
      rw [hkind] at hid
      cases hid

/-- A program has the codes that its graph uses, and no others. -/
theorem emittedCodes_used (hg : g.Sound)
    (hok : ofGraph g root symbolPrefix options = .ok parser) :
    (∀ code, g.Uses root code →
      ∃ id ∈ emittedCodes parser, parser.machine.Compiles code id)
      ∧ ∀ id ∈ emittedCodes parser, ∃ code, g.Uses root code
          ∧ parser.machine.Compiles code id := by
  obtain ⟨spans, l, hspans, himage, -, hlands, -⟩ := image_of_ofGraph hg hok
  have hwell := wellFormed_of_ofGraph hg hok
  rw [← himage.machine]
  refine ⟨fun code huse => ?_, fun id hid => ?_⟩
  · cases huse with
    | @invoke n ref reached kind =>
        obtain ⟨s, hs, hfits⟩ :=
          himage.live_fits hg hlands reached (by simp [kind])
        obtain ⟨callee, hcallee, hcode⟩ := hfits.invoke kind
        refine ⟨callee, hwell.mem_emittedCodes.mpr (Or.inr ⟨s, hs, ?_⟩), hcode⟩
        rw [mentionedCodes, hcallee]
        exact List.mem_singleton_self callee
    | @span n span reached kind =>
        obtain ⟨s, hs, hfits⟩ :=
          himage.live_fits hg hlands reached (by simp [kind])
        obtain ⟨slot, callback, _, hslot, hcode⟩ := hfits.spanStart kind
        obtain ⟨hlt, hlisted⟩ :=
          himage.listedSlot (hg.slotsAllocated hspans) hslot hcode
        have hslots := List.mem_flatten.mpr ⟨_, List.getElem_mem hlt, hlisted⟩
        exact ⟨callback, hwell.mem_emittedCodes.mpr (Or.inl hslots), hcode⟩
  · rcases hwell.mem_emittedCodes.mp hid with hslots | ⟨s, hs, hmentioned⟩
    · obtain ⟨slot, hslot, hin⟩ := List.mem_flatten.mp hslots
      obtain ⟨group, hgroup, hisSlot⟩ := exists_of_mem_right himage.slots hslot
      obtain ⟨span, hspanned, hcode⟩ := hisSlot.used id hin
      obtain ⟨n, hn, hkind⟩ := hg.started_of_listed hspans hgroup hspanned
      exact ⟨_, .span hn hkind, hcode⟩
    · have hlt : s < parser.machine.size :=
        lt_of_live (himage.lt_of_lands hlands) hs
      obtain ⟨role, -, hallowed, hrealizes⟩ := himage.role_of_lt hlt
      exact uses_of_mentioned hg hspans hrealizes hallowed hmentioned

/-- The parser of a graph is well formed. It has a program unless a property is
not declared or not of the right type, and the program has the live states. -/
theorem generates_of_ofGraph (hg : g.Built)
    (hok : ofGraph g root symbolPrefix options = .ok parser)
    (debugHook headerName : Option String) :
    parser.WellFormed
      ∧ (∀ cause, ofParser parser debugHook headerName = .error cause →
        cause.code = "E0105" ∨ cause.code = "E0107")
      ∧ ∀ program, ofParser parser debugHook headerName = .ok program →
        program.stateCount = parser.liveStates.toFinset.card := by
  have hwell := wellFormed_of_ofGraph hg.sound hok
  refine ⟨hwell, fun cause hcause => ?_, fun program hprogram => ?_⟩
  · have hfails := ofParser_fails hwell debugHook headerName cause hcause
    cases cause with
    | unknownField field => exact Or.inl rfl
    | unsupportedType type field operation => exact Or.inr rfl
    | _ => exact hfails.elim
  · have hlive : parser.liveStates.toFinset
        = (emissionOrder parser).toFinset := by
      ext s
      rw [List.mem_toFinset, List.mem_toFinset, hwell.mem_emissionOrder]
    rw [hlive, List.toFinset_card_of_nodup parser.nodup_emissionOrder]
    exact (states_of_ofParser hprogram).1.length_eq.symm

/-- The program of the pairs. -/
def pairsProgram : Program where
  symbolPrefix := "p"
  headerName := "p"
  debugHook := none
  stateNames :=
    #["p__n_span_start_on_pair", "p__n_pair", "p__n_span_end_on_pair"]
  blobs := [⟨[0x61, 0x62], none⟩]
  matchers := [.identity]
  states := [
    ⟨0, true, [.waitForInput 0, .openSlot 0, .jump ⟨false, none, 1⟩]⟩,
    ⟨1, true, [.declare "llparse_match_t" "match_seq", .blank, .waitForInput 1,
      .matchLiteral .identity ⟨[0x61, 0x62], none⟩,
      .onOutcome 1 ⟨true, none, 2⟩ ⟨true, none, 1⟩]⟩,
    ⟨2, false,
      [.declare "const unsigned char*" "start", .declare "int" "err", .blank,
      .closeSlot 0, .callSpan "on_pair", .onSpanError false 0,
        .jump ⟨false, none, 0⟩]⟩]
  functions := [⟨"on_pair", .span, none⟩]
  root := 0
  slots := [["on_pair"]]

/-- The parser becomes this program. -/
theorem ofParser_pairs :
    ofParser pairsParser none none = .ok pairsProgram := by
  cbv

/-- The parser of the pairs has three live states, and so has its program. -/
theorem pairs_generate : pairsParser.WellFormed
    ∧ pairsProgram.stateCount = pairsParser.liveStates.toFinset.card
    ∧ pairsProgram.stateCount = 3 := by
  obtain ⟨hwell, _, hcount⟩ :=
    generates_of_ofGraph built_pairs ofGraph_pairs none none
  exact ⟨hwell, hcount pairsProgram ofParser_pairs, rfl⟩

end Parser

end Bytewise

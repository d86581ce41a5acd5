/-
The tables of a program.

The body of a state that looks bytes up declares a table with an entry for
every byte, and branches on the entry of the next one. If all its bytes
lead back to the state, it may skip them by vector before: then it skips
only bytes that the table sends back, and jumps only where the table does
(`LooksUp`).
-/
import Bytewise.Proofs.Parser.Values
import Bytewise.Proofs.Program.Bodies
import Bytewise.Proofs.Program.Emission
import Bytewise.Proofs.Program.Ranges

namespace Bytewise

namespace Program

open Machine (Key)

-- ============================================================= entries

/-- The entry of a table at a byte. -/
def entryAt (entries : List UInt8) (b : UInt8) : Nat :=
  (entries.getD b.toNat 0).toNat

/-- The entry that groups of bytes make at a byte: that of the last one that
has it. -/
def lastEntry (groups : List (List UInt8)) (b : UInt8) : UInt8 :=
  groups.zipIdx.foldl (fun entry (group : List UInt8 × Nat) =>
    if group.1.contains b then UInt8.ofNat (group.2 + 1) else entry) 0

theorem lastEntry_concat (groups : List (List UInt8)) (group : List UInt8)
    (b : UInt8) :
    lastEntry (groups ++ [group]) b
      = if group.contains b then UInt8.ofNat (groups.length + 1) else lastEntry
          groups b := by
  unfold lastEntry
  rw [List.zipIdx_append, List.foldl_append, Nat.zero_add]
  rfl

theorem entryAt_tableEntries (groups : List (List UInt8)) (b : UInt8) :
    entryAt (tableEntries groups) b = (lastEntry groups b).toNat := by
  have hat : ByteSet.allBytes[b.toNat]? = some b := by
    rw [ByteSet.allBytes, List.getElem?_map, List.getElem?_range b.toNat_lt,
      Option.map_some,
      UInt8.ofNat_toNat]
  unfold entryAt tableEntries
  rw [List.getD_eq_getElem?_getD, List.getElem?_map, hat]
  rfl

theorem lastEntry_cases (groups : List (List UInt8)) (b : UInt8) :
    ((lastEntry groups b).toNat = 0 ∧ ∀ group ∈ groups, b ∉ group)
      ∨ ∃ i group, groups[i]? = some group ∧ b ∈ group
        ∧ (lastEntry groups b).toNat = (i + 1) % 256 := by
  induction groups using List.reverseRecOn with
  | nil => exact Or.inl ⟨rfl, fun _ hgroup => nomatch hgroup⟩
  | append_singleton groups group ih =>
      rw [lastEntry_concat]
      split
      · rename_i hhere
        exact Or.inr ⟨groups.length, group, List.getElem?_concat_length,
          List.contains_iff_mem.mp hhere, UInt8.toNat_ofNat'⟩
      · rename_i hhere
        have hnot : b ∉ group :=
          fun hmem => hhere (List.contains_iff_mem.mpr hmem)
        rcases ih with ⟨hzero, hnone⟩ | ⟨i, found, hi, hmem, hsucc⟩
        · refine Or.inl ⟨hzero, fun other hother => ?_⟩
          rcases List.mem_append.mp hother with hother | hother
          · exact hnone other hother
          · exact List.mem_singleton.mp hother ▸ hnot
        · refine Or.inr ⟨i, found, ?_, hmem, hsucc⟩
          rw [List.getElem?_append_left (List.getElem?_eq_some_iff.mp hi).1]
          exact hi

/-- Disjoint groups have a byte once. -/
theorem index_unique {groups : List (List UInt8)}
    (hapart : groups.Pairwise List.Disjoint) {i j : Nat}
    {group other : List UInt8} (hi : groups[i]? = some group)
    (hj : groups[j]? = some other) {b : UInt8} (hb : b ∈ group)
    (hb' : b ∈ other) : i = j := by
  obtain ⟨hilt, rfl⟩ := List.getElem?_eq_some_iff.mp hi
  obtain ⟨hjlt, rfl⟩ := List.getElem?_eq_some_iff.mp hj
  have hpairs := List.pairwise_iff_getElem.mp hapart
  rcases Nat.lt_trichotomy i j with hlt | heq | hlt
  · exact absurd hb' (hpairs i j hilt hjlt hlt hb)
  · exact heq
  · exact absurd hb (hpairs j i hjlt hilt hlt hb')

variable {groups : List (List UInt8)} {b : UInt8}

/-- The entries of few disjoint groups tell the groups apart. -/
theorem entryAt_eq_succ (hfew : groups.length < 256)
    (hapart : groups.Pairwise List.Disjoint)
    {i : Nat} : entryAt (tableEntries groups) b = i + 1
      ↔ ∃ group, groups[i]? = some group ∧ b ∈ group := by
  rw [entryAt_tableEntries]
  rcases lastEntry_cases groups b with ⟨hzero, hnone⟩
    | ⟨j, found, hj, hmem, hsucc⟩
  · rw [hzero]
    refine iff_of_false (fun h => nomatch h) fun ⟨group, hgroup, hb⟩ => ?_
    exact hnone group (List.mem_of_getElem? hgroup) hb
  · have hlt := (List.getElem?_eq_some_iff.mp hj).1
    rw [hsucc, Nat.mod_eq_of_lt (by omega)]
    constructor
    · intro hsame
      obtain rfl := Nat.succ.inj hsame
      exact ⟨found, hj, hmem⟩
    · rintro ⟨group, hgroup, hb⟩
      rw [index_unique hapart hj hgroup hmem hb]

theorem entryAt_eq_zero (hfew : groups.length < 256) :
    entryAt (tableEntries groups) b = 0 ↔ ∀ group ∈ groups, b ∉ group := by
  rw [entryAt_tableEntries]
  rcases lastEntry_cases groups b with ⟨hzero, hnone⟩
    | ⟨j, found, hj, hmem, hsucc⟩
  · exact iff_of_true hzero hnone
  · have hlt := (List.getElem?_eq_some_iff.mp hj).1
    rw [hsucc, Nat.mod_eq_of_lt (by omega)]
    exact iff_of_false (fun h => nomatch h) fun h =>
      h found (List.mem_of_getElem? hj) hmem

-- =============================================================== edges

/-- The edges list bytes, and the table has an entry for every byte: one more
than the index of the edge that lists the byte, or zero if there is none. -/
structure Tabulates (edges : List Machine.Edge) (entries : List UInt8) :
    Prop where
  length : entries.length = 256
  keyed : ∀ edge ∈ edges, ∃ keys, edge.key = some (.bytes keys)
  hit : ∀ b i, entryAt entries b = i + 1
    ↔ ∃ edge keys, edges[i]? = some edge ∧ edge.key = some (.bytes keys)
      ∧ b ∈ keys
  miss : ∀ b, entryAt entries b = 0
    ↔ ∀ edge ∈ edges, ∀ keys, edge.key = some (.bytes keys) → b ∉ keys

variable {edges : List Machine.Edge}

/-- Edges with groups as their keys have the groups one by one. -/
theorem getElem?_of_keys
    (hkeys : edges.map (·.key) = groups.map (some ∘ Key.bytes)) {i : Nat}
    {group : List UInt8} :
    groups[i]? = some group ↔ ∃ edge, edges[i]? = some edge
        ∧ edge.key = some (.bytes group) := by
  have hat : (edges.map (·.key))[i]?
    = (groups.map (some ∘ Key.bytes))[i]? := by rw [hkeys]
  rw [List.getElem?_map, List.getElem?_map] at hat
  constructor
  · intro hgroup
    rw [hgroup] at hat
    exact Option.map_eq_some_iff.mp hat
  · rintro ⟨edge, hedge, hkey⟩
    rw [hedge, Option.map_some, hkey] at hat
    obtain ⟨found, hfound, hsame⟩ := Option.map_eq_some_iff.mp hat.symm
    rw [hfound]
    exact congrArg some (Key.bytes.inj (Option.some.inj hsame))

/-- The entries of few disjoint groups tell the edges apart. -/
theorem tabulates_tableEntries
    (hkeys : edges.map (·.key) = groups.map (some ∘ Key.bytes))
    (hfew : groups.length < 256) (hapart : groups.Pairwise List.Disjoint) :
    Tabulates edges (tableEntries groups) where
  length := by simp [tableEntries, ByteSet.allBytes]
  keyed edge hedge := by
    obtain ⟨keys, _, hkey⟩ := key_of_mem hkeys hedge
    exact ⟨keys, hkey⟩
  hit b i := by
    rw [entryAt_eq_succ hfew hapart]
    constructor
    · rintro ⟨group, hgroup, hb⟩
      obtain ⟨edge, hedge, hkey⟩ := (getElem?_of_keys hkeys).mp hgroup
      exact ⟨edge, group, hedge, hkey, hb⟩
    · rintro ⟨edge, keys, hedge, hkey, hb⟩
      exact ⟨keys, (getElem?_of_keys hkeys).mpr ⟨edge, hedge, hkey⟩, hb⟩
  miss b := by
    rw [entryAt_eq_zero hfew]
    constructor
    · intro h edge hedge keys hkey
      obtain ⟨i, hi⟩ := List.mem_iff_getElem?.mp hedge
      exact h keys
        (List.mem_of_getElem? ((getElem?_of_keys hkeys).mpr ⟨edge, hi, hkey⟩))
    · intro h group hgroup
      obtain ⟨i, hi⟩ := List.mem_iff_getElem?.mp hgroup
      obtain ⟨edge, hedge, hkey⟩ := (getElem?_of_keys hkeys).mp hi
      exact h edge (List.mem_of_getElem? hedge) group hkey

/-- The keys of the edges of a table. -/
theorem keys_of_tableKeys {state : Machine.State}
    (h : tableKeys state = .ok groups) :
    state.edges.map (·.key) = groups.map (some ∘ Key.bytes) := by
  have hpairs : List.Forall₂ (fun (pair : Machine.Edge × Nat) group =>
      pair.1.key = some (Key.bytes group)) state.edges.zipIdx groups := by
    refine (forall₂_of_mapM h).imp fun pair group hgroup => ?_
    obtain ⟨edge, index⟩ := pair
    dsimp only at hgroup
    split at hgroup
    · rename_i keys hkey
      split at hgroup
      · obtain rfl := Except.ok.inj hgroup
        exact hkey
      · cases hgroup
    · cases hgroup
  have hedges : List.Forall₂ (fun (edge : Machine.Edge) group => edge.key
      = some (Key.bytes group))
      state.edges groups := by
    rw [← List.zipIdx_map_fst 0 state.edges]
    exact List.forall₂_map_left_iff.mpr hpairs
  rw [← List.forall₂_eq_eq_eq]
  exact List.forall₂_map_left_iff.mpr (List.forall₂_map_right_iff.mpr hedges)

/-- A table of a state in shape tells its edges apart. -/
theorem tabulates_of_shaped {parser : Parser} {s : StateId}
    (h : parser.Shaped s) (hkind : (parser.machine.state s).kind = .table)
    (hkeys : tableKeys (parser.machine.state s) = .ok groups) :
    Tabulates (parser.machine.state s).edges (tableEntries groups) := by
  have hfits := h.keys
  rw [hkind] at hfits
  obtain ⟨groups', hsame, hfew, _, hapart⟩ := hfits
  have hbytes : Function.Injective (some ∘ Key.bytes) :=
    (Option.some_injective _).comp fun _ _ => Key.bytes.inj
  obtain rfl : groups = groups' :=
    List.map_injective_iff.mpr hbytes
      ((keys_of_tableKeys hkeys).symm.trans hsame)
  exact tabulates_tableEntries hsame hfew hapart

-- ============================================================== bodies

variable {parser : Parser} {program : Program}
  {debugHook headerName : Option String} {s : StateId}

/-- The body of a state that looks bytes up. -/
theorem body_of_table {code : State}
    (hcode : stateOf parser debugHook s = .ok code)
    (hkind : (parser.machine.state s).kind = .table) :
    ∃ otherwise groups, (parser.machine.state s).otherwise = some otherwise
      ∧ tableKeys (parser.machine.state s) = .ok groups
      ∧ code.body = debugHook.toList.map (fun hook =>
            Stmt.trace hook (traceMessage (parser.machine.state s)))
          ++ ([.declareTable (tableEntries groups), .waitForInput s]
            ++ vectorSkip s (parser.machine.state s) otherwise
            ++ [.onEntry (parser.machine.state s).effectiveTransform
              ((parser.machine.state s).edges.map takeEdge)
                  (takeEdge otherwise)]) := by
  obtain ⟨body, hbody, hrest⟩ := ok_of_bind hcode
  obtain rfl := Except.ok.inj hrest
  have hmade := bodyOf_of_kindBody hbody
  rw [hkind] at hmade
  cases hmade with
  | @table otherwise groups next keys =>
      exact ⟨otherwise, groups, next, keys, rfl⟩

/-- Bytes are skipped by vector only where one edge has all of them, reads them
as they are, and leads back. -/
theorem vectorSkip_cases (own : StateId) (state : Machine.State)
    (otherwise : Machine.Edge) :
    vectorSkip own state otherwise = []
      ∨ ∃ edge keys, state.edges = [edge] ∧ edge.key = some (.bytes keys)
        ∧ state.effectiveTransform = .identity ∧ edge.target = own
        ∧ edge.noAdvance = false
        ∧ (rangeBytes (byteRanges keys)).length ≤ maxRangeBytes
        ∧ vectorSkip own state otherwise
          = [.skipRanges own (rangeChunks keys) (takeEdge otherwise)] := by
  unfold vectorSkip
  split
  · rename_i edge hedges
    split
    · rename_i keys hkey
      dsimp only
      split
      · rename_i hfits
        simp only [Bool.and_eq_true, beq_iff_eq, Bool.not_eq_true',
          decide_eq_true_eq] at hfits
        obtain ⟨⟨⟨htransform, htarget⟩, hreads⟩, hfew⟩ := hfits
        exact Or.inr ⟨edge, keys, hedges, hkey, htransform, htarget,
          hreads, hfew, rfl⟩
      · exact Or.inl rfl
    · exact Or.inl rfl
  · exact Or.inl rfl

/-- The constants of a program are those that its bodies read. -/
theorem mem_blobs_of_ofParser
    (hok : ofParser parser debugHook headerName = .ok program)
    {blob : Blob} : blob ∈ program.blobs
      ↔ ∃ code ∈ program.states, ∃ stmt ∈ code.body, blob ∈ stmt.blobs := by
  obtain ⟨_, _, hrest⟩ := ok_of_bind hok
  obtain ⟨states, _, hrest⟩ := ok_of_bind hrest
  obtain ⟨functions, _, hrest⟩ := ok_of_bind hrest
  obtain rfl := Except.ok.inj hrest
  dsimp only
  simp only [List.mem_eraseDups, List.mem_flatMap]
  constructor
  · rintro ⟨stmt, ⟨code, hcode, hstmt⟩, hblob⟩
    exact ⟨code, hcode, stmt, hstmt, hblob⟩
  · rintro ⟨code, hcode, stmt, hstmt, hblob⟩
    exact ⟨stmt, ⟨code, hcode, hstmt⟩, hblob⟩

/-- The jump that a table sends a byte to: entry `i + 1` means case `i`. -/
def tableJump (entries : List UInt8) (cases : List Jump) (default : Jump)
    (b : UInt8) : Jump :=
  match entryAt entries b with
  | 0 => default
  | i + 1 => cases.getD i default

/-- Chunks of ranges in the body of the state `s` are skipped as a table with
these entries would. The state has one edge, which reads a byte as it is and
comes back, and the constants are there. Where there are 16 bytes, the
comparisons go on over bytes that the table sends to the edge, or take the jump
behind them, and this just if the table sends the next byte to no edge. -/
structure SkipsAsTable (parser : Parser) (program : Program) (s : StateId)
    (entries : List UInt8) (chunks : List (List UInt8)) : Prop where
  loops : ∃ edge, (parser.machine.state s).edges = [edge]
    ∧ takeEdge edge = ⟨true, none, s⟩
  transform : (parser.machine.state s).effectiveTransform = .identity
  constants : ∀ chunk ∈ chunks,
    (chunkBlob chunk).bytes.length = 16 ∧ chunkBlob chunk ∈ program.blobs
  skips : ∀ b more, 16 ≤ (b :: more).length →
    ((∃ k, skip chunks (b :: more) = .reenters k ∧ 1 ≤ k ∧ k ≤ 16
        ∧ ∀ c ∈ (b :: more).take k, entryAt entries c = 1)
      ∨ skip chunks (b :: more) = .jumps)
    ∧ (skip chunks (b :: more) = .jumps ↔ entryAt entries b = 0)

/-- The body of a state of the program looks bytes up in a table with these
entries, after it may have skipped some of them. The jump that it skips to is
that of a byte that no edge has. -/
structure LooksUp (parser : Parser) (program : Program) (code : State)
    (entries : List UInt8) (skips : List Stmt) (default : Jump) : Prop where
  tabulates : Tabulates (parser.machine.state code.id).edges entries
  otherwise : (parser.machine.state code.id).otherwise.map takeEdge
    = some default
  skipped : skips = [] ∨ ∃ chunks, skips = [.skipRanges code.id chunks default]
    ∧ SkipsAsTable parser program code.id entries chunks
  body : ∃ traces,
    (∀ stmt ∈ traces, ∃ hook message, stmt = .trace hook message)
    ∧ code.body
      = traces ++ ([.declareTable entries, .waitForInput code.id] ++ skips
      ++ [.onEntry (parser.machine.state code.id).effectiveTransform
        ((parser.machine.state code.id).edges.map takeEdge) default])

/-- The table of one edge has an entry for its bytes. -/
theorem Tabulates.only {edge : Machine.Edge} {keys entries : List UInt8}
    (h : Tabulates [edge] entries) (hkey : edge.key = some (.bytes keys))
    (b : UInt8) :
    (entryAt entries b = 1 ↔ b ∈ keys)
        ∧ (entryAt entries b = 0 ↔ b ∉ keys) := by
  constructor
  · rw [h.hit b 0]
    constructor
    · rintro ⟨found, bytes, hfound, hbytes, hb⟩
      obtain rfl := Option.some.inj hfound
      obtain rfl := Key.bytes.inj (Option.some.inj (hkey.symm.trans hbytes))
      exact hb
    · exact fun hb => ⟨edge, keys, rfl, hkey, hb⟩
  · rw [h.miss b]
    constructor
    · exact fun hnone => hnone edge List.mem_cons_self keys hkey
    · intro hnot found hfound bytes hbytes
      obtain rfl := List.mem_singleton.mp hfound
      obtain rfl := Key.bytes.inj (Option.some.inj (hkey.symm.trans hbytes))
      exact hnot

/-- The body of a state in shape that looks bytes up does so in a table of its
edges. -/
theorem looksUp_of_stateOf
    (hok : ofParser parser debugHook headerName = .ok program) {code : State}
    (hcode : code ∈ program.states)
    (hstate : stateOf parser debugHook code.id = .ok code)
    (hshaped : parser.Shaped code.id)
    (hkind : (parser.machine.state code.id).kind = .table)
    (hvalue : ∀ edge ∈ (parser.machine.state code.id).edges, edge.target
      = code.id → edge.value = none) :
    ∃ entries skips default, LooksUp parser program code entries skips
        default := by
  obtain ⟨otherwise, groups, hother, hgroups, hbody⟩ :=
    body_of_table hstate hkind
  have htabulates := tabulates_of_shaped hshaped hkind hgroups
  have hskips :=
    vectorSkip_cases code.id (parser.machine.state code.id) otherwise
  refine ⟨tableEntries groups, vectorSkip code.id
    (parser.machine.state code.id) otherwise,
    takeEdge otherwise, htabulates, by
      rw [hother]; rfl, hskips.imp_right ?_, _, ?_, hbody⟩
  · rintro ⟨edge, keys, hedges, hkey, htransform, htarget, hreads, hfew, hskip⟩
    have hconstants : ∀ chunk ∈ rangeChunks keys,
        chunkBlob chunk ∈ program.blobs := by
      intro chunk hchunk
      refine (mem_blobs_of_ofParser hok).mpr ⟨code, hcode,
        .skipRanges code.id (rangeChunks keys) (takeEdge otherwise), ?_,
        List.mem_map_of_mem hchunk⟩
      rw [hbody, hskip]
      simp
    have hentries := (hedges ▸ htabulates).only hkey
    have hnone := hvalue edge (hedges ▸ List.mem_cons_self) htarget
    refine ⟨rangeChunks keys, hskip, ⟨edge, hedges, ?_⟩, htransform,
        fun chunk hchunk =>
      ⟨length_chunkBlob (length_le_of_mem_rangeChunks hchunk hfew),
        hconstants chunk hchunk⟩,
      fun b more hroom => ?_⟩
    · rw [takeEdge, hreads, hnone, htarget]
      rfl
    · obtain ⟨hcomes, hjumps⟩ := skip_rangeChunks hfew hroom
      refine ⟨hcomes.imp_left ?_, hjumps.trans (hentries b).2.symm⟩
      rintro ⟨k, hskip, hpos, hle, hkeys⟩
      exact ⟨k, hskip, hpos, hle, fun c hc => (hentries c).1.mpr (hkeys c hc)⟩
  · intro stmt hstmt
    obtain ⟨hook, _, rfl⟩ := List.mem_map.mp hstmt
    exact ⟨hook, _, rfl⟩

end Program

-- =============================================================== loops

/-- An edge of a table that has a value comes from an edge of its node. -/
theorem Layout.Realizes.valued {l : Layout} {bp : Blueprint} {root : NodeId}
    {role : Role} {state : Machine.State} (h : l.Realizes bp role state)
    (hallowed : bp.Allows root role) (hkind : state.kind = .table)
    {edge : Machine.Edge} (hedge : edge ∈ state.edges) {v : Int64}
    (hv : edge.value = some v) : ∃ e ∈ (bp.graph.node role.node).edges,
    e.value = some v
      ∧ l.lands e.target edge.target := by
  cases h with
  | whole kind edges otherwise ends =>
      rw [hkind] at kind
      exact kind.elim
  | @part n t _ transform keyed closed =>
      cases t with
      | leaf leaf => exact keyed.elim
      | sequence literal child => exact nomatch hkind.symm.trans keyed.1
      | single bs fallback =>
          obtain ⟨b, htakes⟩ := keyed.2.used edge hedge
          obtain ⟨⟨_, _, child⟩, hx, _, _, hvalue, hbelow⟩ :=
            keyed.2.branch edge hedge b htakes
          have hwithin := (hallowed.part n _ rfl).2.branch hx
          cases child with
          | leaf leaf =>
              obtain ⟨e, he, htarget, hsame⟩ := hwithin.leaf
              refine ⟨e, he, hsame.trans (hvalue.symm.trans hv), ?_⟩
              rw [htarget]
              exact hbelow
          | sequence literal child => exact nomatch hv.symm.trans hvalue
          | single bs fallback => exact nomatch hv.symm.trans hvalue

namespace Parser

open Program

variable {parser : Parser} {g : Graph} {root : NodeId} {symbolPrefix : String}
  {options : Options}

/-- An edge of a table that comes back to it has no value: the table takes
none. -/
theorem Image.value_of_loop {bp : Blueprint} {entry : NodeId → Option StateId}
    {l : Layout} (h : parser.Image bp root entry l) (hg : bp.graph.Built)
    {s : StateId} (hkind : (parser.machine.state s).kind = .table)
    {edge : Machine.Edge} (hedge : edge ∈ (parser.machine.state s).edges)
    (hloop : edge.target = s) :
    edge.value = none := by
  have hlt : s < parser.machine.size :=
    Machine.lt_of_mem_allEdges (List.mem_append_left _ hedge)
  obtain ⟨role, _, hallowed, hrealizes⟩ := h.role_of_lt hlt
  cases hv : edge.value with
  | none => rfl
  | some v =>
      obtain ⟨e, he, hvalue, hlands⟩ :=
        hrealizes.valued hallowed hkind hedge hv
      have hmade : e ∈ (bp.graph.node role.node).allEdges :=
        Graph.mem_allEdges.mpr (Or.inl he)
      have htakes :=
        ((hg.lawful.nodes _ (Graph.lt_of_mem_allEdges hmade)).values e
          hmade).mp
        (by rw [hvalue]; rfl)
      obtain ⟨callee, hinvoke, _⟩ := h.takesValue_of_node hlands htakes
      rw [hloop, hkind] at hinvoke
      cases hinvoke

variable {debugHook headerName : Option String} {program : Program}

/-- A state is emitted under its number. -/
theorem id_of_stateOf {s : StateId} {code : State}
    (h : stateOf parser debugHook s = .ok code) :
    code.id = s := by
  obtain ⟨body, _, hrest⟩ := ok_of_bind h
  obtain rfl := Except.ok.inj hrest
  rfl

/-- The bodies of the program that look bytes up do so in tables of their
edges. -/
theorem looksUp_of_ofGraph (hg : g.Built)
    (hok : ofGraph g root symbolPrefix options = .ok parser)
    (hprogram : ofParser parser debugHook headerName = .ok program)
    {code : State} (hcode : code ∈ program.states)
    (hkind : (parser.machine.state code.id).kind = .table) :
    ∃ entries skips default, LooksUp parser program code entries skips
        default := by
  obtain ⟨spans, l, hspans, himage, _⟩ := image_of_ofGraph hg.sound hok
  have hwell := wellFormed_of_ofGraph hg.sound hok
  obtain ⟨s, hs, hstate⟩ :=
    exists_of_mem_right (states_of_ofParser hprogram).1 hcode
  obtain rfl := id_of_stateOf hstate
  have hshaped := hwell.states _ (hwell.mem_emissionOrder.mp hs)
  exact looksUp_of_stateOf hprogram hcode hstate hshaped hkind
      fun edge hedge hloop =>
    himage.value_of_loop hg hkind hedge hloop

end Parser

end Bytewise

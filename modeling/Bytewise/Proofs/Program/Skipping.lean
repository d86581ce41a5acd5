/-
Tables and vectors as steps.

The jump that a table sends a byte to is the step that the parser takes on
it. What is skipped by vector is as many such steps, each of which comes
back, so nothing else of the parser changes; where nothing is skipped, the
jump is the next step. So it does not matter to a host whether its machine
has the vector unit.
-/
import Bytewise.Proofs.Execution.Basic
import Bytewise.Proofs.Parser.Tables
import Bytewise.Proofs.Program.Spelling
import Bytewise.Proofs.Program.TableBlocks

namespace Bytewise

namespace Program

-- =============================================================== edges

variable {edges : List Machine.Edge} {entries : List UInt8}
  {edge : Machine.Edge} {b : UInt8}

theorem takes_iff_mem {keys : List UInt8}
    (hkey : edge.key = some (.bytes keys)) :
    edge.takes b = true ↔ b ∈ keys := by
  unfold Machine.Edge.takes
  rw [hkey]
  exact List.contains_iff_mem

/-- The entry of a byte is that of the edge which takes it. -/
theorem Tabulates.entry_of_takes (h : Tabulates edges entries) {i : Nat}
    (hedge : edges[i]? = some edge) (htakes : edge.takes b = true) :
    entryAt entries b = i + 1 := by
  obtain ⟨keys, hkey⟩ := h.keyed edge (List.mem_of_getElem? hedge)
  exact (h.hit b i).mpr
    ⟨edge, keys, hedge, hkey, (takes_iff_mem hkey).mp htakes⟩

/-- No edge takes a byte without an entry. -/
theorem Tabulates.find_of_zero (h : Tabulates edges entries)
    (hzero : entryAt entries b = 0) :
    edges.find? (·.takes b) = none := by
  rw [List.find?_eq_none]
  intro edge hedge htakes
  obtain ⟨i, hi⟩ := List.mem_iff_getElem?.mp hedge
  rw [h.entry_of_takes hi htakes] at hzero
  cases hzero

/-- The edge that takes a byte is the one of its entry. -/
theorem Tabulates.find_of_succ (h : Tabulates edges entries) {i : Nat}
    (hsucc : entryAt entries b = i + 1) :
    ∃ edge, edges[i]? = some edge ∧ edges.find? (·.takes b) = some edge := by
  obtain ⟨edge, keys, hedge, hkey, hb⟩ := (h.hit b i).mp hsucc
  refine ⟨edge, hedge, ?_⟩
  cases hfind : edges.find? (·.takes b) with
  | none =>
      have hnot :=
        List.find?_eq_none.mp hfind edge (List.mem_of_getElem? hedge)
      exact absurd ((takes_iff_mem hkey).mpr hb) hnot
  | some found =>
      obtain ⟨j, hj⟩ :=
        List.mem_iff_getElem?.mp (List.mem_of_find?_eq_some hfind)
      have htakes : found.takes b = true :=
        List.find?_some (p := fun e : Machine.Edge => e.takes b) hfind
      have hfirst := h.entry_of_takes hj htakes
      obtain rfl := Nat.succ.inj (hsucc.symm.trans hfirst)
      exact hj.symm.trans hedge

variable {parser : Parser} {program : Program} {s : StateId}
  {chunks : List (List UInt8)}

/-- Bytes that may be skipped are looked up as they are. -/
theorem SkipsAsTable.apply_eq
    (h : SkipsAsTable parser program s entries chunks) (b : UInt8) :
    (parser.machine.state s).effectiveTransform.apply b = b := by
  rw [h.transform]
  rfl

/-- The table sends a byte that is skipped back. -/
theorem SkipsAsTable.jump_of_entry
    (h : SkipsAsTable parser program s entries chunks) (default : Jump)
    (hentry : entryAt entries b = 1) :
    tableJump entries ((parser.machine.state s).edges.map takeEdge) default
        ((parser.machine.state s).effectiveTransform.apply b)
      = ⟨true, none, s⟩ := by
  obtain ⟨edge, hedges, hback⟩ := h.loops
  rw [h.apply_eq, hedges, tableJump, hentry]
  exact hback

end Program

namespace Parser

open Program

variable {parser : Parser} {program : Program} {code : State}
  {entries : List UInt8} {skips : List Stmt} {default : Jump} {host : Host}
  {data : List UInt8} {c : Config}

-- =============================================================== steps

/-- Goes where a jump leads. -/
def Config.jump (c : Config) (jump : Jump) : Config :=
  { c with
    state := jump.target
    position := if jump.advance then c.position + 1 else c.position
    matched := jump.value <|> c.matched }

theorem follow_eq_jump (c : Config) (edge : Machine.Edge) :
    c.follow edge edge.value = c.jump (takeEdge edge) := by
  unfold Config.follow Config.jump takeEdge
  cases edge.noAdvance <;> rfl

/-- On the next byte the parser goes where the table sends the byte. -/
theorem step_of_looksUp (h : LooksUp parser program code entries skips default)
    (hkind : (parser.machine.state code.id).kind = .table)
    (hc : c.state = code.id) {b : UInt8} {more : List UInt8}
    (hinput : data.drop c.position = b :: more) :
    parser.step host data c
      = .next (c.jump
          (tableJump entries
          ((parser.machine.state code.id).edges.map takeEdge) default
          ((parser.machine.state code.id).effectiveTransform.apply b))) := by
  obtain ⟨otherwise, hother, rfl⟩ := Option.map_eq_some_iff.mp h.otherwise
  rw [← hc] at hother hkind ⊢
  have htabulates := h.tabulates
  rw [← hc] at htabulates
  rw [step_of_some hother, body, hkind]
  dsimp only
  rw [branchBody, hinput, tableJump]
  dsimp only
  cases hentry : entryAt entries
      ((parser.machine.state c.state).effectiveTransform.apply b) with
  | zero =>
      rw [htabulates.find_of_zero hentry]
      exact congrArg Step.next (follow_eq_jump c otherwise)
  | succ i =>
      obtain ⟨edge, hedge, hfind⟩ := htabulates.find_of_succ hentry
      rw [hfind]
      dsimp only
      rw [follow_eq_jump, List.getD_eq_getElem?_getD, List.getElem?_map, hedge]
      rfl

/-- What comes back has read a byte, and changed nothing else. -/
theorem jump_back {s : StateId} (hc : c.state = s) :
    c.jump ⟨true, none, s⟩ = { c with position := c.position + 1 } := by
  subst hc
  rfl

/-- Bytes that a table sends back are read one by one. -/
theorem steps_of_entries
    (h : LooksUp parser program code entries skips default)
    (hkind : (parser.machine.state code.id).kind = .table)
    {chunks : List (List UInt8)}
    (hskips : SkipsAsTable parser program code.id entries chunks) {k : Nat}
    (hc : c.state = code.id) (hle : k ≤ (data.drop c.position).length)
    (hentries : ∀ b ∈ (data.drop c.position).take k, entryAt entries b = 1) :
    Relation.ReflTransGen (fun c d => parser.step host data c = .next d) c
      { c with position := c.position + k } := by
  induction k generalizing c with
  | zero => exact .refl
  | succ k ih =>
      cases hinput : data.drop c.position with
      | nil =>
          rw [hinput] at hle
          exact absurd hle (Nat.not_succ_le_zero k)
      | cons b more =>
          rw [hinput] at hle hentries
          have hrest : data.drop (c.position + 1) = more := by
            rw [← List.drop_drop, hinput]
            rfl
          have hstep : parser.step host data c
              = .next { c with position := c.position + 1 } := by
            rw [step_of_looksUp h hkind hc hinput,
              hskips.jump_of_entry default (hentries b List.mem_cons_self),
                jump_back hc]
          have hsteps := ih (c := { c with position := c.position + 1 }) hc
            (by rw [hrest]; exact Nat.le_of_succ_le_succ hle)
            (by
              rw [hrest]; exact fun b' hb' => hentries b'
                (List.mem_cons_of_mem _ hb'))
          rw [Nat.add_assoc, Nat.add_comm 1 k] at hsteps
          exact .head hstep hsteps

/-- Where there are 16 bytes, a block of vector comparisons either comes back
after as many steps of the parser as it has skipped bytes, or takes the jump
that is the next step. -/
theorem steps_of_skipsAsTable
    (h : LooksUp parser program code entries skips default)
    (hkind : (parser.machine.state code.id).kind = .table)
    {chunks : List (List UInt8)}
    (hskips : SkipsAsTable parser program code.id entries chunks)
    (hc : c.state = code.id) (hroom : 16 ≤ (data.drop c.position).length) :
    (∃ k, skip chunks (data.drop c.position) = .reenters k ∧ 1 ≤ k
        ∧ Relation.ReflTransGen (fun c d => parser.step host data c = .next d)
          c { c with position := c.position + k })
      ∨ (skip chunks (data.drop c.position) = .jumps
        ∧ parser.step host data c = .next (c.jump default)) := by
  cases hinput : data.drop c.position with
  | nil =>
      rw [hinput] at hroom
      cases hroom
  | cons b more =>
      rw [hinput] at hroom
      obtain ⟨hcomes, hjumps⟩ := hskips.skips b more hroom
      rcases hcomes with ⟨k, hskip, hpos, hle, hentries⟩ | hjump
      · refine Or.inl ⟨k, hskip, hpos, ?_⟩
        rw [← hinput] at hentries hroom
        exact steps_of_entries h hkind hskips hc
          (Nat.le_trans hle hroom) hentries
      · refine Or.inr ⟨hjump, ?_⟩
        rw [step_of_looksUp h hkind hc hinput, hskips.apply_eq, tableJump,
          hjumps.mp hjump]

-- ============================================================ programs

/-- Whether it looks bytes up or skips them, a body does what the parser
does. -/
structure Performs (parser : Parser) (code : State) (entries : List UInt8)
    (skips : List Stmt) (default : Jump) : Prop where
  lookup : ∀ (host : Host) (data : List UInt8) (c : Config) (b : UInt8)
    (more : List UInt8),
    c.state = code.id → data.drop c.position = b :: more →
      parser.step host data c = .next (c.jump (tableJump entries
        ((parser.machine.state code.id).edges.map takeEdge) default
        ((parser.machine.state code.id).effectiveTransform.apply b)))
  vector : ∀ (host : Host) (data : List UInt8) (c : Config)
    (chunks : List (List UInt8)),
    skips = [.skipRanges code.id chunks default] → c.state = code.id →
      16 ≤ (data.drop c.position).length →
        (∃ k, skip chunks (data.drop c.position) = .reenters k ∧ 1 ≤ k
            ∧ Relation.ReflTransGen
              (fun c d => parser.step host data c = .next d) c
              { c with position := c.position + k })
          ∨ (skip chunks (data.drop c.position) = .jumps
            ∧ parser.step host data c = .next (c.jump default))

theorem performs_of_looksUp
    (h : LooksUp parser program code entries skips default)
    (hkind : (parser.machine.state code.id).kind = .table) :
    Performs parser code entries skips default where
  lookup _ _ _ _ _ hc hinput := step_of_looksUp h hkind hc hinput
  vector host data c chunks hone hc hroom := by
    rcases h.skipped with hnil | ⟨chunks', hone', hskips⟩
    · rw [hone] at hnil
      cases hnil
    · rw [hone] at hone'
      obtain ⟨-, rfl, -⟩ := Stmt.skipRanges.inj (List.cons.inj hone').1
      exact steps_of_skipsAsTable h hkind hskips hc hroom

variable {g : Graph} {root : NodeId} {symbolPrefix : String}
  {options : Options} {debugHook headerName : Option String}

/-- Without a debug hook, no body that looks bytes up tells it anything. -/
theorem trace_notMem_table
    (hprogram : ofParser parser debugHook headerName = .ok program)
    (hcode : code ∈ program.states)
    (hkind : (parser.machine.state code.id).kind = .table)
    (hnone : program.debugHook = none) :
    ∀ stmt ∈ code.body, ∀ hook message, stmt ≠ .trace hook message := by
  have hparts := parts_of_ofParser hprogram
  obtain ⟨s, -, hstate⟩ := exists_of_mem_right hparts.states hcode
  obtain rfl := id_of_stateOf hstate
  obtain rfl := hparts.hook.symm.trans hnone
  obtain ⟨otherwise, groups, -, -, hbody⟩ := body_of_table hstate hkind
  rintro stmt hstmt hook message rfl
  have hskips :=
    vectorSkip_cases code.id (parser.machine.state code.id) otherwise
  rw [hbody] at hstmt
  rcases hskips with hskip | ⟨_, _, _, _, _, _, _, _, hskip⟩
  · simp [hskip] at hstmt
  · simp [hskip] at hstmt

/-- Every live state that looks bytes up has a body that looks them up in a
table of its edges. What the body skips by vector is what the table would
send back, as far as it would, and so it does what the parser does. The
table, the comparisons with their constants and the dispatch are read back
off the source, if its prefix is an identifier, as it is in every
artifact. -/
theorem tables_of_ofGraph (hg : g.Built)
    (hok : ofGraph g root symbolPrefix options = .ok parser)
    (hprogram : ofParser parser debugHook headerName = .ok program) :
    (∀ s ∈ parser.liveStates, ∃ code ∈ program.states, code.id = s)
      ∧ ∀ code ∈ program.states,
        (parser.machine.state code.id).kind = .table →
        ∃ entries skips default,
          LooksUp parser program code entries skips default
          ∧ Performs parser code entries skips default
          ∧ (Text.isIdentifier symbolPrefix = true → ∃ table,
            Prints parser program code entries skips default table) := by
  have hwell := wellFormed_of_ofGraph hg.sound hok
  refine ⟨fun s hs => ?_, fun code hcode hkind => ?_⟩
  · obtain ⟨code, hcode, hstate⟩ :=
      exists_of_mem_left (states_of_ofParser hprogram).1
        (hwell.mem_emissionOrder.mpr hs)
    exact ⟨code, hcode, id_of_stateOf hstate⟩
  · obtain ⟨entries, skips, default, h⟩ :=
      looksUp_of_ofGraph hg hok hprogram hcode hkind
    refine ⟨entries, skips, default, h, performs_of_looksUp h hkind,
      fun hsymbol => ?_⟩
    exact prints_of_looksUp h hcode
      (isWord_stateLabel (isWord_of_ofGraph hsymbol hok).1 hprogram)
      (trace_notMem_table hprogram hcode hkind)

/-- The bits, looked up in a table. -/
def bitTable : Parser :=
  bitsParser .table [⟨some (.bytes [0x30, 0x31]), 0, false, none⟩]

theorem ofGraph_bitTable :
    ofGraph bits 0 "b" { minTableSize := 2 } = .ok bitTable := by
  cbv

/-- The program of the bits. -/
def bitsProgram : Program where
  symbolPrefix := "b"
  headerName := "b"
  debugHook := none
  stateNames := #["b__n_bit", "b__n_error"]
  blobs := [⟨[0x30, 0x31, 0, 0, 0, 0, 0, 0, 0, 0, 0, 0, 0, 0, 0, 0], some 16⟩]
  matchers := []
  states := [
    ⟨0, true, [.declareTable (tableEntries [[0x30, 0x31]]), .waitForInput 0,
      .skipRanges 0 [[0x30, 0x31]] ⟨false, none, 1⟩,
      .onEntry .identity [⟨true, none, 0⟩] ⟨false, none, 1⟩]⟩,
    ⟨1, false, [.setError 1 "no bit", .setCurrent .error, .leave .error]⟩]
  functions := []
  root := 0
  slots := []

set_option maxRecDepth 4000 in
theorem ofParser_bitTable : ofParser bitTable none none = .ok bitsProgram := by
  cbv

/-- The bits are looked up in a table, and skipped by vector before, and so
it is printed. -/
theorem bits_looked_up : ∃ code ∈ bitsProgram.states,
    .skipRanges 0 [[0x30, 0x31]] ⟨false, none, 1⟩ ∈ code.body
      ∧ ∃ entries skips default,
        LooksUp bitTable bitsProgram code entries skips default
        ∧ Performs bitTable code entries skips default
        ∧ ∃ table,
          Prints bitTable bitsProgram code entries skips default table := by
  obtain ⟨_, htables⟩ :=
    tables_of_ofGraph built_bits ofGraph_bitTable ofParser_bitTable
  obtain ⟨entries, skips, default, hlooks, hperforms, hprints⟩ :=
    htables _ List.mem_cons_self rfl
  exact ⟨_, List.mem_cons_self, by simp, entries, skips, default, hlooks,
    hperforms, hprints (by decide)⟩

end Parser

end Bytewise

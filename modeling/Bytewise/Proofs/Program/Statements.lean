/-
The statements of a program, executed.

A body works on the state of the parser and on local variables, and leaves
for another state or for the host. What it does in all is what the parser
does in a step, or in several where it skips by vector (`Follows`); it
never comes to its end, where the source promises the compiler not to come,
and never reads behind the input. So a run of the program goes where the
parser goes, and leaves where it does.

Codes are called by name. That no two that are called share one is an
assumption here: a callback that has the name of an intrinsic would be
called in its place.
-/
import Bytewise.Proofs.Execution.Returns
import Bytewise.Proofs.Program.Skipping

namespace Bytewise

/-- Whether a state of the kind closes a span. -/
def Machine.StateKind.EndsSpan : Machine.StateKind → Prop
  | .spanEnd .. => True
  | _ => False

namespace Program

open Machine (LiteralStatus)

-- ============================================================== names

/-- The code that a program calls by a name. -/
def codeNamed (parser : Parser) (name : String) : CodeId :=
  ((emittedCodes parser).find? fun id =>
    (parser.machine.code id).name == name).getD 0

/-- If names differ, each code is called by its own. -/
theorem codeNamed_code {parser : Parser}
    (hnames : ((emittedCodes parser).map fun id =>
      (parser.machine.code id).name).Nodup) {id : CodeId}
    (hid : id ∈ emittedCodes parser) :
    codeNamed parser (parser.machine.code id).name = id := by
  have hfind : ((emittedCodes parser).find? fun other =>
      (parser.machine.code other).name == (parser.machine.code id).name).isSome
        = true :=
    List.find?_isSome.mpr ⟨id, hid, by simp⟩
  obtain ⟨found, hfound⟩ := Option.isSome_iff_exists.mp hfind
  have hsame := List.find?_some hfound
  rw [beq_iff_eq] at hsame
  rw [codeNamed, hfound]
  exact List.inj_on_of_nodup_map hnames (List.mem_of_find?_eq_some hfound) hid
    hsame

-- ========================================================== semantics

/-- What a body works on: the state of the parser, and local variables. -/
structure Memory where
  config : Parser.Config
  /-- The error that has been stored, and its reason. -/
  error : Option Int32 := none
  reason : Option String := none
  /-- The place that has been stored for the next call to go on at. -/
  current : Option Label := none
  table : List UInt8 := []
  /-- How the last comparison with a literal has come out. -/
  status : LiteralStatus := .pause
  /-- The slot that has been closed last, and where its span began. -/
  slot : SlotId := 0
  start : Option Nat := none
  /-- What the last callback of a span has answered. -/
  answer : Int32 := 0

/-- How a body is left. -/
inductive Exit where
  /-- It jumps to a state. -/
  | goes (c : Parser.Config)
  /-- It returns a label. -/
  | returns (label : Label) (m : Memory)
  /-- It has read behind the input, or come to its end. -/
  | lost

/-- The case of a value, or the default. -/
def caseJump {α : Type} [BEq α] (cases : List (α × Jump)) (default : Jump)
    (value : α) : Jump :=
  ((cases.find? (·.1 == value)).map (·.2)).getD default

/-- The bytes from the start of a span to its end. -/
def spanned (data : List UInt8) (start : Option Nat) (stop : Nat) :
    List UInt8 :=
  match start with
  | some start => (data.take stop).drop start
  | none => []

/-- Executes statements, with `data` as the input so far. Only some machines
have the vector unit; callbacks of spans answer `answer`. -/
def exec (parser : Parser) (host : Host) (data : List UInt8) (vector : Bool)
    (answer : Int32) : List Stmt → Memory → Exit
  | [], _ => .lost
  | stmt :: rest, m =>
    let on := exec parser host data vector answer rest
    let c := m.config
    match stmt with
    | .blank | .declare .. | .trace .. | .measure _ => on m
    | .waitForInput own =>
      if (data.drop c.position).isEmpty then .returns (.state own) m else on m
    | .jump jump => .goes (c.jump jump)
    | .leave label => .returns label m
    | .setCurrent label => on { m with current := some label }
    | .setError code reason =>
      on { m with error := some code, reason := some reason }
    | .call callee _ cases default =>
      let id := codeNamed parser callee
      let (result, c) := c.call host id (parser.machine.code id)
      .goes (c.jump (caseJump cases default result))
    | .matchLiteral transform literal =>
      let (status, read, index) := Machine.matchLiteral transform literal.bytes
        (data.drop c.position) c.index
      on { m with
        config := { c with position := c.position + read, index }
        status }
    | .onOutcome own complete mismatch =>
      match m.status with
      | .complete => .goes (c.jump complete)
      | .pause => .returns (.state own) m
      | .mismatch => .goes (c.jump mismatch)
    | .onByte transform cases default =>
      match data.drop c.position with
      | [] => .lost
      | b :: _ => .goes (c.jump (caseJump cases default (transform.apply b)))
    | .declareTable entries => on { m with table := entries }
    | .skipRanges own chunks default =>
      if vector then
        match skip chunks (data.drop c.position) with
        | .passes => on m
        | .reenters count =>
          .goes { c with state := own, position := c.position + count }
        | .jumps => .goes (c.jump default)
      else on m
    | .onEntry transform cases default =>
      match data.drop c.position with
      | [] => .lost
      | b :: _ =>
        .goes (c.jump (tableJump m.table cases default (transform.apply b)))
    | .openSlot slot =>
      on { m with config := { c with
        starts := fun s => if s = slot then some c.position else c.starts s } }
    | .setCallback slot callback =>
      on { m with config := { c with
        holders := fun s => if s = slot
          then some (codeNamed parser callback) else c.holders s } }
    | .closeSlot slot =>
      on { m with
        config :=
          { c with starts := fun s => if s = slot then none else c.starts s }
        slot
        start := c.starts slot }
    | .callSpan callback =>
      on { m with
        config := { c with deliveries := c.deliveries
          ++ [⟨m.slot, codeNamed parser callback,
            spanned data m.start c.position⟩] }
        answer }
    | .onSpanError advance resume =>
      if m.answer = 0 then on m
      else .returns .error { m with
        config := { c with
          position := if advance then c.position + 1 else c.position }
        error := some m.answer
        current := some (.state resume) }
    | .skipAll field next =>
      if c.fields field ≤ (data.drop c.position).length then
        .goes (({ c with
          position := c.position + c.fields field
          fields := c.fields.set field 0 } : Parser.Config).jump next)
      else on m
    | .skipRest field =>
      let rest := c.fields field - (data.drop c.position).length
      on { m with config := { c with fields := c.fields.set field rest } }

/-- How a body that is left in that way follows the parser. -/
inductive Follows (parser : Parser) (host : Host) (data : List UInt8)
    (vector : Bool) (answer : Int32) (c : Parser.Config) : Exit → Prop where
  /-- By vector it may take several steps at once. -/
  | goes {c' : Parser.Config} (steps : Relation.TransGen
        (fun c d => parser.step host data c = .next d) c c')
      (one : vector = false → parser.step host data c = .next c')
      (served : (parser.machine.state c.state).kind.EndsSpan → answer = 0) :
      Follows parser host data vector answer c (.goes c')
  /-- All input is read. The position does not matter any more. -/
  | waits {c' : Parser.Config} {m : Memory}
      (step : parser.step host data c = .suspend c')
      (same : { m.config with position := data.length }
        = { c' with position := data.length })
      (error : m.error = none) (current : m.current = none) :
      Follows parser host data vector answer c (.returns (.state c.state) m)
  | errs {code : Int32} {reason : String} {m : Memory}
      (kind : (parser.machine.state c.state).kind = .error code reason)
      (step : parser.step host data c = .stop c code reason)
      (same : m.config = c) (error : m.error = some code)
      (reason : m.reason = some reason) (current : m.current = some .error) :
      Follows parser host data vector answer c (.returns .error m)
  | pauses {code : Int32} {reason : String} {m : Memory}
      {otherwise : Machine.Edge}
      (kind : (parser.machine.state c.state).kind = .pause code reason)
      (next : (parser.machine.state c.state).otherwise = some otherwise)
      (step : parser.step host data c = .stop c code reason)
      (same : m.config = c) (error : m.error = some code)
      (reason : m.reason = some reason)
      (current : m.current = some (.state otherwise.target)) :
      Follows parser host data vector answer c (.returns .error m)
  /-- The callback of a span that has been closed has failed. -/
  | interrupted {slot : SlotId} {callback : CodeId} {c' : Parser.Config}
      {m : Memory}
      (kind : (parser.machine.state c.state).kind = .spanEnd slot callback)
      (failed : answer ≠ 0) (step : parser.step host data c = .next c')
      (same : { m.config with state := c'.state } = c')
      (error : m.error = some answer)
      (current : m.current = some (.state c'.state)) :
      Follows parser host data vector answer c (.returns .error m)

-- ============================================================== cases

section cases

variable {edges : List Machine.Edge}

/-- Following an edge without a value is a plain jump. -/
theorem follow_none (c : Parser.Config) (edge : Machine.Edge) :
    c.follow edge none = c.jump (takePlain edge) := by
  unfold Parser.Config.follow Parser.Config.jump takePlain
  cases edge.noAdvance <;> rfl

/-- The case of a value is the edge with it as its key. -/
theorem find?_of_casesOf {α : Type} [BEq α] [LawfulBEq α]
    {key : α → Machine.Key} (hkey : Function.Injective key)
    {cases : List (α × Jump)} (h : CasesOf key edges cases) (value : α) :
    (cases.find? (·.1 == value)).map (·.2)
      = (edges.find? (·.key == some (key value))).map takeEdge := by
  induction h with
  | nil => rfl
  | @cons edge pair edges cases hpair hpairs ih =>
      obtain ⟨hedge, hjump⟩ := hpair
      rw [List.find?_cons, List.find?_cons, hedge]
      have hsame : (some (key pair.1) == some (key value))
          = (pair.1 == value) := by
        rw [Bool.eq_iff_iff, beq_iff_eq, beq_iff_eq, Option.some.injEq]
        exact hkey.eq_iff
      rw [hsame]
      cases pair.1 == value with
      | true => exact congrArg some hjump
      | false => exact ih

/-- The edge of a byte is the one with it as its key. -/
theorem find?_takes {cases : List (UInt8 × Jump)}
    (h : CasesOf Machine.Key.byte edges cases) (b : UInt8) :
    edges.find? (·.takes b) = edges.find? (·.key == some (.byte b)) := by
  induction h with
  | nil => rfl
  | @cons edge pair edges cases hpair hpairs ih =>
      have htakes : edge.takes b = (edge.key == some (.byte b)) := by
        rw [Machine.Edge.takes, hpair.1, Bool.eq_iff_iff, beq_iff_eq,
          beq_iff_eq, Option.some.injEq, Machine.Key.byte.injEq]
      rw [List.find?_cons, List.find?_cons, htakes, ih]

end cases

-- ============================================================= bodies

section bodies

variable {parser : Parser} {host : Host} {data : List UInt8} {vector : Bool}
  {answer : Int32} {c c' : Parser.Config} {body rest : List Stmt}
  {otherwise : Machine.Edge}

/-- Statements that go on follow a step that does. -/
theorem Follows.of_next (h : parser.step host data c = .next c')
    (hserved : (parser.machine.state c.state).kind.EndsSpan → answer = 0) :
    Follows parser host data vector answer c (.goes c') :=
  .goes (.single h) (fun _ => h) hserved

/-- Statements that return follow a step that suspends. -/
theorem Follows.of_suspend (h : parser.step host data c = .suspend c) :
    Follows parser host data vector answer c
      (.returns (.state c.state) { config := c }) :=
  .waits h rfl rfl rfl

/-- A body that waits if its edge consumes. -/
theorem exec_waitIfConsuming (edge : Machine.Edge) (m : Memory) :
    exec parser host data vector answer
        (waitIfConsuming c.state edge ++ rest) m
      = if !edge.noAdvance && (data.drop m.config.position).isEmpty then
          .returns (.state c.state) m
        else exec parser host data vector answer rest m := by
  unfold waitIfConsuming
  cases edge.noAdvance <;> simp [exec]

/-- Where a body first waits, and then leaves as the parser goes on, it
follows. -/
theorem follows_of_passBody {consumes : Bool} {exit : Exit}
    (hstep : parser.step host data c = Parser.passBody data c consumes c')
    (hexit : parser.step host data c = .next c' →
      Follows parser host data vector answer c exit) :
    Follows parser host data vector answer c
      (if consumes && (data.drop c.position).isEmpty then
        .returns (.state c.state) { config := c } else exit) := by
  unfold Parser.passBody at hstep
  split
  · rename_i hwaits
    rw [if_pos hwaits] at hstep
    exact .of_suspend hstep
  · rename_i hgoes
    rw [if_neg hgoes] at hstep
    exact hexit hstep

variable (hnext : (parser.machine.state c.state).otherwise = some otherwise)
include hnext

/-- The body of a consuming state follows its step. -/
theorem follows_consume {field : String} {property : Property}
    (hkind : (parser.machine.state c.state).kind = .consume field) :
    Follows parser host data vector answer c
      (exec parser host data vector answer [
        .declare "size_t" "avail",
        .declare property.type.declared "need",
        .blank,
        .measure field,
        .skipAll field (takeEdge otherwise),
        .blank,
        .skipRest field,
        .leave (.state c.state)] { config := c }) := by
  have hstep : parser.step host data c
      = Parser.skipBody data c field otherwise := by
    rw [Parser.step_of_some hnext, Parser.body, hkind]
  unfold Parser.skipBody at hstep
  simp only [exec]
  split
  · rename_i henough
    rw [if_pos henough] at hstep
    rw [← Parser.follow_eq_jump]
    exact .of_next hstep (hkind ▸ False.elim)
  · rename_i hless
    rw [if_neg hless] at hstep
    exact .waits hstep rfl rfl rfl

/-- The body of an empty state follows its step. -/
theorem follows_empty
    (hkind : (parser.machine.state c.state).kind = .empty) :
    Follows parser host data vector answer c
      (exec parser host data vector answer (waitIfConsuming c.state otherwise
        ++ [.jump (takeEdge otherwise)]) { config := c }) := by
  have hstep : parser.step host data c = Parser.passBody data c
      (!otherwise.noAdvance) (c.follow otherwise otherwise.value) := by
    rw [Parser.step_of_some hnext, Parser.body, hkind]
  rw [exec_waitIfConsuming]
  refine follows_of_passBody hstep fun hstep => ?_
  simp only [exec, ← Parser.follow_eq_jump]
  exact .of_next hstep (hkind ▸ False.elim)

/-- The body of a state that calls a code follows its step. -/
theorem follows_invoke {callee : CodeId} {cases : List (Int32 × Jump)}
    (hkind : (parser.machine.state c.state).kind = .invoke callee)
    (hkeys : CasesOf Machine.Key.code (parser.machine.state c.state).edges
      cases)
    (hname : codeNamed parser (parser.machine.code callee).name
      = callee) :
    Follows parser host data vector answer c
      (exec parser host data vector answer
        [.call (parser.machine.code callee).name
          (parser.machine.code callee).signature cases (takePlain otherwise)]
        { config := c }) := by
  have hstep : parser.step host data c = Parser.invokeBody host c callee
      (parser.machine.code callee) (parser.machine.state c.state).edges
      otherwise := by
    rw [Parser.step_of_some hnext, Parser.body, hkind]
  simp only [exec, hname]
  refine .of_next ?_ (hkind ▸ False.elim)
  rw [hstep, Parser.invokeBody, caseJump,
    find?_of_casesOf (fun _ _ => Machine.Key.code.inj) hkeys]
  dsimp only
  cases hfound : (parser.machine.state c.state).edges.find? _ with
  | none => exact congrArg Parser.Step.next (follow_none _ otherwise)
  | some edge => exact congrArg Parser.Step.next (Parser.follow_eq_jump _ edge)

/-- The body of a literal follows its step. -/
theorem follows_sequence {edge : Machine.Edge} {others : List Machine.Edge}
    {literal : List UInt8}
    (hkind : (parser.machine.state c.state).kind = .sequence)
    (hedges : (parser.machine.state c.state).edges = edge :: others)
    (hkey : edge.key = some (.bytes literal)) :
    Follows parser host data vector answer c
      (exec parser host data vector answer [
        .declare "llparse_match_t" "match_seq",
        .blank,
        .waitForInput c.state,
        .matchLiteral (parser.machine.state c.state).effectiveTransform
          { bytes := literal },
        .onOutcome c.state (takeEdge edge) (takeEdge otherwise)]
        { config := c }) := by
  have hstep : parser.step host data c = Parser.literalBody data c
      (parser.machine.state c.state).effectiveTransform
      (edge :: others) otherwise := by
    rw [Parser.step_of_some hnext, Parser.body, hkind, hedges]
  rw [Parser.literalBody_eq hkey] at hstep
  simp only [exec]
  split
  · rename_i hempty
    rw [List.isEmpty_iff.mp hempty, Machine.matchLiteral] at hstep
    exact .of_suspend hstep
  · revert hstep
    rcases Machine.matchLiteral
      (parser.machine.state c.state).effectiveTransform
      literal (data.drop c.position) c.index with ⟨_ | _ | _, read, index⟩
    · intro hstep
      dsimp only
      rw [← Parser.follow_eq_jump]
      exact .of_next hstep (hkind ▸ False.elim)
    · intro hstep
      exact .waits hstep rfl rfl rfl
    · intro hstep
      dsimp only
      rw [← Parser.follow_eq_jump]
      exact .of_next hstep (hkind ▸ False.elim)

/-- The body of a state that tells bytes apart follows its step. -/
theorem follows_single {cases : List (UInt8 × Jump)}
    (hkind : (parser.machine.state c.state).kind = .single)
    (hkeys : CasesOf Machine.Key.byte (parser.machine.state c.state).edges
      cases) :
    Follows parser host data vector answer c
      (exec parser host data vector answer [
        .waitForInput c.state,
        .onByte (parser.machine.state c.state).effectiveTransform cases
          (takeEdge otherwise)] { config := c }) := by
  have hstep : parser.step host data c = Parser.branchBody data c
      (parser.machine.state c.state).effectiveTransform
      (parser.machine.state c.state).edges otherwise := by
    rw [Parser.step_of_some hnext, Parser.body, hkind]
  have htakes := fun b => find?_takes hkeys b
  rw [Parser.branchBody] at hstep
  simp only [exec]
  cases hinput : data.drop c.position with
  | nil =>
      rw [hinput] at hstep
      exact .of_suspend hstep
  | cons b more =>
      rw [hinput] at hstep
      dsimp only [List.isEmpty] at hstep ⊢
      rw [htakes] at hstep
      rw [if_neg Bool.false_ne_true, caseJump, find?_of_casesOf
        (fun _ _ => Machine.Key.byte.inj) hkeys]
      refine .of_next (hstep.trans ?_) (hkind ▸ False.elim)
      cases (parser.machine.state c.state).edges.find? _ with
      | none => exact congrArg Parser.Step.next (Parser.follow_eq_jump _ _)
      | some edge =>
          exact congrArg Parser.Step.next (Parser.follow_eq_jump _ _)

/-- The body of a state that opens a slot follows its step. -/
theorem follows_spanStart {slot : SlotId} {callback : CodeId}
    (hkind : (parser.machine.state c.state).kind = .spanStart slot callback)
    (halone : parser.isSharedSlot slot = false) :
    Follows parser host data vector answer c
      (exec parser host data vector answer [
        .waitForInput c.state, .openSlot slot, .jump (takePlain otherwise)]
        { config := c }) := by
  have hstep : parser.step host data c = Parser.passBody data c true
      ((c.openSlot slot callback false).follow otherwise none) := by
    rw [Parser.step_of_some hnext, Parser.body, hkind, ← halone]
  have hholders : (fun s => if s = slot && false then some callback
      else c.holders s) = c.holders := by
    funext s
    rw [Bool.and_false, if_neg Bool.false_ne_true]
  refine follows_of_passBody hstep fun hstep => ?_
  simp only [exec, ← follow_none]
  rw [Parser.Config.openSlot, hholders] at hstep
  exact .of_next hstep (hkind ▸ False.elim)

theorem follows_sharedStart {slot : SlotId} {callback : CodeId}
    (hkind : (parser.machine.state c.state).kind = .spanStart slot callback)
    (hshared : parser.isSharedSlot slot = true)
    (hname : codeNamed parser (parser.machine.code callback).name
      = callback) :
    Follows parser host data vector answer c
      (exec parser host data vector answer [
        .waitForInput c.state, .openSlot slot,
        .setCallback slot (parser.machine.code callback).name,
        .jump (takePlain otherwise)] { config := c }) := by
  have hstep : parser.step host data c = Parser.passBody data c true
      ((c.openSlot slot callback true).follow otherwise none) := by
    rw [Parser.step_of_some hnext, Parser.body, hkind, ← hshared]
  refine follows_of_passBody hstep fun hstep => ?_
  simp only [exec, ← follow_none, hname]
  simp only [Parser.Config.openSlot, Bool.and_true, decide_eq_true_eq] at hstep
  exact .of_next hstep (hkind ▸ False.elim)

/-- The body of a state that closes a slot follows its step. -/
theorem follows_spanEnd {slot : SlotId} {callback : CodeId}
    (hkind : (parser.machine.state c.state).kind = .spanEnd slot callback)
    (hname : codeNamed parser (parser.machine.code callback).name
      = callback) :
    Follows parser host data vector answer c
      (exec parser host data vector answer (waitIfConsuming c.state otherwise
        ++ [
          .declare "const unsigned char*" "start",
          .declare "int" "err",
          .blank,
          .closeSlot slot,
          .callSpan (parser.machine.code callback).name,
          .onSpanError (!otherwise.noAdvance) otherwise.target,
          .jump (takePlain otherwise)]) { config := c }) := by
  have hstep : parser.step host data c = Parser.passBody data c
      (!otherwise.noAdvance)
      ((c.closeSlot data slot callback).follow otherwise none) := by
    rw [Parser.step_of_some hnext, Parser.body, hkind]
  rw [exec_waitIfConsuming]
  refine follows_of_passBody hstep fun hstep => ?_
  simp only [exec, hname]
  split
  · rw [← follow_none]
    rename_i hanswered
    exact .of_next hstep fun _ => hanswered
  · rename_i hfailed
    refine .interrupted hkind hfailed hstep ?_ rfl rfl
    unfold Parser.Config.follow
    cases otherwise.noAdvance <;> rfl

omit hnext in
/-- The body of a pause follows its step. -/
theorem follows_pause {code : Int32} {reason : String}
    {otherwise : Machine.Edge}
    (hkind : (parser.machine.state c.state).kind = .pause code reason)
    (hnext : (parser.machine.state c.state).otherwise = some otherwise) :
    Follows parser host data vector answer c
      (exec parser host data vector answer
        [.setError code reason, .setCurrent (.state otherwise.target),
          .leave .error] { config := c }) := by
  have hstep : parser.step host data c = .stop c code reason := by
    rw [Parser.step_of_some hnext, Parser.body, hkind]
  exact .pauses hkind hnext hstep rfl rfl rfl rfl

omit hnext in
/-- The body of an error follows its step. -/
theorem follows_error {code : Int32} {reason : String}
    (hkind : (parser.machine.state c.state).kind = .error code reason) :
    Follows parser host data vector answer c
      (exec parser host data vector answer
        [.setError code reason, .setCurrent .error, .leave .error]
        { config := c }) := by
  have hstep : parser.step host data c = .stop c code reason := by
    simp only [Parser.step, Parser.body, hkind]
    cases (parser.machine.state c.state).otherwise <;> rfl
  exact .errs hkind hstep rfl rfl rfl rfl

omit hnext in
/-- What skips bytes by vector follows if what stands behind it does: it goes
where lookups in the table go, or is passed. -/
theorem follows_skipRanges {program : Program} {entries : List UInt8}
    {skips : List Stmt} {default : Jump} {code : State}
    {chunks : List (List UInt8)} {behind : List Stmt}
    (h : LooksUp parser program code entries skips default)
    (hc : c.state = code.id)
    (hkind : (parser.machine.state code.id).kind = .table)
    (hskips : SkipsAsTable parser program code.id entries chunks)
    (hbehind : Follows parser host data vector answer c
      (exec parser host data vector answer behind
        { config := c, table := entries })) :
    Follows parser host data vector answer c
      (exec parser host data vector answer
        (.skipRanges code.id chunks default :: behind)
        { config := c, table := entries }) := by
  rw [exec]
  dsimp only
  split
  · rename_i hvector
    by_cases hroom : 16 ≤ (data.drop c.position).length
    · rcases Parser.steps_of_skipsAsTable h hkind hskips hc hroom with
        ⟨k, hskip, hpos, hsteps⟩ | ⟨hskip, hstep⟩
      · rw [hskip, ← hc]
        refine .goes ?_ (fun hscalar => ?_) (hc ▸ hkind ▸ False.elim)
        · refine (Relation.reflTransGen_iff_eq_or_transGen.mp
            hsteps).resolve_left ?_
          intro hsame
          have := congrArg Parser.Config.position hsame
          dsimp only at this
          omega
        · rw [hvector] at hscalar
          cases hscalar
      · rw [hskip]
        exact .of_next hstep (hc ▸ hkind ▸ False.elim)
    · have hpasses : skip chunks (data.drop c.position) = .passes :=
        if_pos (Nat.lt_of_not_le hroom)
      rw [hpasses]
      exact hbehind
  · exact hbehind

omit hnext in
/-- A body that looks bytes up follows, whether there is a vector unit or
not. -/
theorem follows_table {program : Program} {entries : List UInt8}
    {skips : List Stmt} {default : Jump} {code : State}
    (h : LooksUp parser program code entries skips default)
    (hc : c.state = code.id)
    (hkind : (parser.machine.state code.id).kind = .table) :
    Follows parser host data vector answer c
      (exec parser host data vector answer
        (lookupBody code.id entries skips
          (parser.machine.state code.id).effectiveTransform
          ((parser.machine.state code.id).edges.map takeEdge) default)
        { config := c }) := by
  obtain ⟨otherwise, hother, -⟩ := Option.map_eq_some_iff.mp h.otherwise
  cases hinput : data.drop c.position with
  | nil =>
      have hstep : parser.step host data c = .suspend c := by
        rw [← hc] at hother hkind
        rw [Parser.step_of_some hother, Parser.body, hkind]
        dsimp only
        rw [Parser.branchBody, hinput]
      have hexec : exec parser host data vector answer
          (lookupBody code.id entries skips
            (parser.machine.state code.id).effectiveTransform
            ((parser.machine.state code.id).edges.map takeEdge) default)
          { config := c } = .returns (.state c.state)
            { config := c, table := entries } := by
        simp [lookupBody, exec, hinput, hc]
      rw [hexec]
      exact .waits hstep rfl rfl rfl
  | cons b more =>
      have hlooks : Follows parser host data vector answer c
          (exec parser host data vector answer
            [.onEntry (parser.machine.state code.id).effectiveTransform
              ((parser.machine.state code.id).edges.map takeEdge) default]
            { config := c, table := entries }) := by
        simp only [exec, hinput]
        exact .of_next (Parser.step_of_looksUp h hkind hc hinput)
          (hc ▸ hkind ▸ False.elim)
      have hexec : exec parser host data vector answer
          (lookupBody code.id entries skips
            (parser.machine.state code.id).effectiveTransform
            ((parser.machine.state code.id).edges.map takeEdge) default)
          { config := c }
          = exec parser host data vector answer (skips
            ++ [.onEntry (parser.machine.state code.id).effectiveTransform
              ((parser.machine.state code.id).edges.map takeEdge) default])
            { config := c, table := entries } := by
        simp [lookupBody, exec, hinput]
      rw [hexec]
      rcases h.skipped with rfl | ⟨chunks, rfl, hskips⟩
      · exact hlooks
      · exact follows_skipRanges h hc hkind hskips hlooks

end bodies

/-- The body of a kind that looks no bytes up follows. -/
theorem follows_of_bodyOf {parser : Parser} {c : Parser.Config}
    {kind : Machine.StateKind} {body : List Stmt}
    (h : BodyOf parser c.state (parser.machine.state c.state) kind body)
    (hkind : (parser.machine.state c.state).kind = kind) (hnot : kind ≠ .table)
    (hnames : ∀ id ∈ mentionedCodes parser (parser.machine.state c.state),
      codeNamed parser (parser.machine.code id).name = id)
    (host : Host) (data : List UInt8) (vector : Bool) (answer : Int32) :
    Follows parser host data vector answer c
      (exec parser host data vector answer body { config := c }) := by
  unfold mentionedCodes at hnames
  rw [hkind] at hnames
  cases h with
  | consume found integer next => exact follows_consume next hkind
  | empty next => exact follows_empty next hkind
  | error => exact follows_error hkind
  | pause next => exact follows_pause hkind next
  | invoke next checked keys =>
      exact follows_invoke next hkind keys (hnames _ List.mem_cons_self)
  | sequence next first key => exact follows_sequence next hkind first key
  | single next keys => exact follows_single next hkind keys
  | table next keys => exact absurd rfl hnot
  | spanStart next alone => exact follows_spanStart next hkind alone
  | @sharedStart slot callback _ next shared checked =>
      have hname := hnames callback (by simp [shared])
      exact follows_sharedStart next hkind shared hname
  | spanEnd next checked =>
      exact follows_spanEnd next hkind (hnames _ List.mem_cons_self)

end Program

end Bytewise

/-
The types of the fields that the source computes on.

C computes with integers. A state that skips bytes does, and so do the
functions of the intrinsics that mask bits or multiply. What a body does is
read off its steps (`integers`), and comes down to what its state or code
asks of a field. Of these a program checks the states that skip and the
intrinsics that multiply; those that mask are let through on a pointer.
-/
import Bytewise.Proofs.Program.Declared
import Bytewise.Proofs.Program.Guards

namespace Bytewise

-- ========================================================== integers

/-- The field that a code masks bits of. -/
def CodeKind.masked? : CodeKind → Option String
  | .and field _ | .or field _ | .test field _ => some field
  | _ => none

/-- The field that a code computes on. To compare it for equality, to load it
or to assign to it is not to compute on it. -/
def CodeKind.integer? : CodeKind → Option String
  | .mulAdd field _ => some field
  | kind => kind.masked?

namespace Program

/-- The fields that an operand computes on. -/
def Operand.integers : Operand → List String
  | .quotient a b | .difference a b | .masked a b => a.fields ++ b.fields
  | .equal a b => a.integers ++ b.integers
  | _ => []

/-- The fields that a step computes on, or makes available as integers. -/
def Step.integers : Step → List String
  | .alias _ field => [field]
  | .assign _ .set value | .answer value => value.integers
  | .assign target _ value => target.fields ++ value.fields
  | .refuseIf refusal => refusal.fields
  | .refuseBySign nonnegative negative => nonnegative.fields ++ negative.fields
  | _ => []

/-- The fields that a statement computes on. -/
def Stmt.integers : Stmt → List String
  | .measure field | .skipAll field _ | .skipRest field => [field]
  | _ => []

/-- The fields that the source of a program computes on. -/
def integers (program : Program) : List String :=
  program.states.flatMap (·.body.flatMap Stmt.integers)
    ++ program.functions.flatMap fun function =>
      (function.body.getD []).flatMap Step.integers

variable {field : String}

/-- The integers that a statement works on are fields of it. -/
theorem Stmt.fields_of_integers {stmt : Stmt} (h : field ∈ stmt.integers) :
    field ∈ stmt.fields := by
  cases stmt <;> first | exact h | cases h

/-- Those of an operand are fields of it. -/
theorem Operand.fields_of_integers {operand : Operand}
    (h : field ∈ operand.integers) :
    field ∈ operand.fields := by
  induction operand with
  | equal a b iha ihb =>
      exact List.mem_append.mpr ((List.mem_append.mp h).imp iha ihb)
  | quotient a b _ _ => exact h
  | difference a b _ _ => exact h
  | masked a b _ _ => exact h
  | _ => cases h

/-- Those of a step are fields of it. -/
theorem Step.fields_of_integers {step : Step} (h : field ∈ step.integers) :
    field ∈ step.fields := by
  cases step with
  | assign target assignment value =>
      cases assignment with
      | set => exact List.mem_append_right _ (Operand.fields_of_integers h)
      | _ => exact h
  | answer value => exact Operand.fields_of_integers h
  | blank => cases h
  | comment text => cases h
  | _ => exact h

variable {parser : Parser}

/-- A state computes on the field that says how many bytes it skips. -/
theorem mem_integers_of_kindBody {own : StateId} {state : Machine.State}
    {body : List Stmt} (h : kindBody parser own state = .ok body) :
    field ∈ body.flatMap Stmt.integers ↔ state.kind = .consume field := by
  -- a body that names no field computes on none
  have hnone : kindFields parser state.kind = [] →
      field ∉ body.flatMap Stmt.integers :=
    fun hkind hfield => by
      obtain ⟨stmt, hstmt, hfield⟩ := List.mem_flatMap.mp hfield
      have hnamed := mem_kindFields_of_kindBody h
        (List.mem_flatMap.mpr ⟨stmt, hstmt, Stmt.fields_of_integers hfield⟩)
      rw [hkind] at hnamed
      cases hnamed
  have hbody := bodyOf_of_kindBody h
  generalize state.kind = kind at hbody hnone ⊢
  cases hbody with
  | consume found integer next => simp [Stmt.integers, eq_comm]
  | error | pause | spanStart | sharedStart => simp [Stmt.integers]
  | spanEnd next checked =>
      unfold waitIfConsuming
      split <;> simp [Stmt.integers]
  | _ => exact iff_of_false (hnone rfl) nofun

/-- An intrinsic computes on its own field, if it does. -/
theorem mem_integers_of_intrinsicBody {kind : CodeKind} {steps : List Step}
    (h : intrinsicBody parser kind = .ok steps) :
    field ∈ steps.flatMap Step.integers ↔ kind.integer? = some field := by
  cases kind with
  | mulAdd name options =>
      constructor
      · intro hfield
        obtain ⟨step, hstep, hfield⟩ := List.mem_flatMap.mp hfield
        exact field_of_mem_intrinsicBody h
          (List.mem_flatMap.mpr ⟨step, hstep, Step.fields_of_integers hfield⟩)
      · intro hfield
        obtain rfl := Option.some.inj hfield
        obtain ⟨property, -, hrest⟩ := ok_of_bind h
        split at hrest
        · rename_i hlimits
          obtain rfl := Except.ok.inj hrest
          have hint := (limits_of_limits? hlimits).1
          unfold mulAddBody
          cases hsigned : options.signed with
          | false => simp [Step.integers, Refusal.fields, Operand.fields]
          | true =>
              obtain ⟨signed, htype⟩ := FieldType.exists_signed hint
              simp [htype, Step.integers]
        · cases hrest
  | _ =>
      obtain rfl := Except.ok.inj h
      simp [Step.integers, Operand.integers, Operand.fields, CodeKind.integer?,
        CodeKind.masked?,
        eq_comm]

/-- To mask bits of a pointer means nothing, whatever it holds. -/
theorem run_masked_pointer {kind : CodeKind} {steps : List Step}
    (h : intrinsicBody parser kind = .ok steps)
    (hmasked : kind.masked? = some field) {frame : Frame}
    (hname : frame.property.name = field)
    (hpointer : frame.property.type.isInteger = false) (matched : Int32) :
    run matched steps frame = .error .pointer := by
  have hfield : (Operand.field field).eval frame matched
      = .error .pointer := by
    unfold Operand.eval Frame.read
    rw [if_pos hname.symm, hpointer]
    rfl
  have hassign : ∀ assignment value rest,
      run matched (.assign (.field field) assignment value :: rest) frame
          = .error .pointer :=
    fun assignment value rest => by
      show ((Operand.field field).eval frame matched >>= _) = _
      rw [hfield]
      rfl
  cases kind with
  | and name value =>
      obtain rfl := Option.some.inj hmasked
      obtain rfl := Except.ok.inj h
      exact hassign _ _ _
  | or name value =>
      obtain rfl := Option.some.inj hmasked
      obtain rfl := Except.ok.inj h
      exact hassign _ _ _
  | test name value =>
      obtain rfl := Option.some.inj hmasked
      obtain rfl := Except.ok.inj h
      simp only [run, Operand.eval] at hfield ⊢
      rw [hfield]
      rfl
  | _ => cases hmasked

variable {debugHook headerName : Option String} {program : Program}

/-- Of states, those that consume work on integers. -/
theorem mem_integers_of_stateOf {s : StateId} {state : State}
    (h : stateOf parser debugHook s = .ok state) :
    field ∈ state.body.flatMap Stmt.integers
      ↔ (parser.machine.state s).kind = .consume field := by
  obtain ⟨body, hbody, hrest⟩ := ok_of_bind h
  obtain rfl := Except.ok.inj hrest
  rw [List.flatMap_append, List.mem_append, mem_integers_of_kindBody hbody]
  exact or_iff_right (by simp [Stmt.integers])

/-- A function works on an integer if its code does. -/
theorem mem_integers_of_functionOf {code : Code} {function : Function}
    (h : functionOf parser code = .ok function) :
    field ∈ (function.body.getD []).flatMap Step.integers
        ↔ code.kind.integer? = some field := by
  unfold functionOf at h
  split at h
  · rename_i hexternal
    obtain rfl := Except.ok.inj h
    obtain ⟨signature, hkind⟩ := Code.exists_external hexternal
    rw [hkind]
    simp [CodeKind.integer?, CodeKind.masked?]
  · obtain ⟨steps, hsteps, hrest⟩ := ok_of_bind h
    obtain rfl := Except.ok.inj hrest
    exact mem_integers_of_intrinsicBody hsteps

/-- The source computes on the fields of the states that skip and of the codes
that compute. -/
theorem Parts.mem_integers (h : Parts parser debugHook program) :
    field ∈ program.integers
    ↔ (∃ s ∈ emissionOrder parser, (parser.machine.state s).kind
      = .consume field)
      ∨ ∃ id ∈ emittedCodes parser, (parser.machine.code id).kind.integer?
          = some field := by
  rw [integers, List.mem_append]
  exact or_congr
    (mem_flatMap_of_forall₂ h.states fun _ _ => mem_integers_of_stateOf)
    (mem_flatMap_of_forall₂ h.functions fun _ _ => mem_integers_of_functionOf)

-- ============================================================ checks

/-- A property that passes its check is an integer. -/
theorem integer_of_required {property : Property} {operation : String}
    (h : requireInteger property operation = .ok ()) :
    property.type.isInteger = true := by
  unfold requireInteger at h
  split at h
  · assumption
  · cases h

/-- A state skips as many bytes as an integer says. -/
theorem integer_of_consumes {own : StateId} {state : Machine.State}
    {body : List Stmt} (h : kindBody parser own state = .ok body)
    (hkind : state.kind = .consume field) :
    ∃ property ∈ parser.properties, property.name = field
        ∧ property.type.isInteger = true := by
  have hbody := bodyOf_of_kindBody h
  rw [hkind] at hbody
  obtain ⟨hproperty, hint, -⟩ := hbody
  obtain ⟨hmem, hname⟩ := named_of_property hproperty
  exact ⟨_, hmem, hname, integer_of_required hint⟩

/-- A multiply-and-add that passes its check works on an integer. -/
theorem integer_of_checkCode {code : Code} {options : MulAdd}
    (h : checkCode parser code = .ok ())
    (hkind : code.kind = .mulAdd field options) :
    ∃ property ∈ parser.properties, property.name = field
        ∧ property.type.isInteger = true := by
  unfold checkCode at h
  rw [hkind] at h
  obtain ⟨property, hproperty, hint⟩ := ok_of_bind h
  obtain ⟨hmem, hname⟩ := named_of_property hproperty
  exact ⟨property, hmem, hname, integer_of_required hint⟩

end Program

-- ============================================================ graphs

namespace Graph

/-- A property of an integer type goes by the name. -/
def HasInteger (g : Graph) (field : String) : Prop :=
  ∃ property ∈ g.properties.toList, property.name = field
    ∧ property.type.isInteger = true

/-- Behind `root`, bytes are skipped by the field, or a code computes on it. -/
def Computes (g : Graph) (root : NodeId) (field : String) : Prop :=
  (∃ n, g.Reaches root n ∧ (g.node n).kind = .consume field)
    ∨ ∃ code, g.Uses root code ∧ code.kind.integer? = some field

/-- Behind `root`, a code masks bits of a pointer. -/
def MasksPointer (g : Graph) (root : NodeId) : Prop :=
  ∃ code field, g.Uses root code ∧ code.kind.masked? = some field
    ∧ ∃ property ∈ g.properties.toList, property.name = field
    ∧ property.type.isInteger = false

end Graph

namespace Program

variable {g : Graph} {root : NodeId} {symbolPrefix : String}
  {options : Options} {parser : Parser} {debugHook headerName : Option String}
  {program : Program} {field : String}

/-- A code that works on an integer masks bits, or multiplies and adds. -/
theorem masked_or_mulAdd {kind : CodeKind} (h : kind.integer? = some field) :
    kind.masked? = some field ∨ ∃ options, kind = .mulAdd field options := by
  cases kind with
  | mulAdd name options =>
      obtain rfl := Option.some.inj h
      exact Or.inr ⟨options, rfl⟩
  | _ => exact Or.inl h

/-- A code that masks bits works on an integer. -/
theorem integer_of_masked {kind : CodeKind} (h : kind.masked? = some field) :
    kind.integer? = some field := by
  cases kind <;> first | exact h | cases h

/-- It has the field of the integer. -/
theorem field_of_masked {kind : CodeKind} (h : kind.masked? = some field) :
    kind.field? = some field := by
  cases kind <;> first | exact h | cases h

/-- The states of the program that skip are those of the nodes that are reached
and skip. -/
theorem consumes_iff (hg : g.Sound)
    (hparser : Parser.ofGraph g root symbolPrefix options = .ok parser) :
    (∃ s ∈ emissionOrder parser, (parser.machine.state s).kind
      = .consume field)
      ↔ ∃ n, g.Reaches root n ∧ (g.node n).kind = .consume field := by
  obtain ⟨spans, l, hspans, himage, -, hlands, -⟩ :=
    Parser.image_of_ofGraph hg hparser
  have hwell := Parser.wellFormed_of_ofGraph hg hparser
  constructor
  · rintro ⟨s, hs, hkind⟩
    have hlt := Parser.lt_of_live (himage.lt_of_lands hlands)
      (hwell.mem_emissionOrder.mp hs)
    obtain ⟨role, -, hallowed, hrealizes⟩ := himage.role_of_lt hlt
    have hfits := hrealizes.kindFits (by rw [hkind]; exact not_false)
    rw [hkind] at hfits
    exact ⟨role.node, hallowed.reached, hfits⟩
  · rintro ⟨n, hn, hkind⟩
    obtain ⟨s, hs, hfits⟩ := himage.live_fits hg hlands hn (by simp [hkind])
    exact ⟨s, hwell.mem_emissionOrder.mpr hs, hfits.consume hkind⟩

/-- The source computes on a field if the graph does. -/
theorem mem_integers_iff (hg : g.Sound)
    (hparser : Parser.ofGraph g root symbolPrefix options = .ok parser)
    (hprogram : ofParser parser debugHook headerName = .ok program) :
    field ∈ program.integers ↔ g.Computes root field := by
  obtain ⟨hused, hemitted⟩ := Parser.emittedCodes_used hg hparser
  rw [(parts_of_ofParser hprogram).mem_integers, consumes_iff hg hparser]
  refine or_congr Iff.rfl ⟨?_, ?_⟩
  · rintro ⟨id, hid, hfield⟩
    obtain ⟨code, huse, hcode⟩ := hemitted id hid
    exact ⟨code, huse, hcode.kind ▸ hfield⟩
  · rintro ⟨code, huse, hfield⟩
    obtain ⟨id, hid, hcode⟩ := hused code huse
    exact ⟨id, hid, hcode.kind.symm ▸ hfield⟩

/-- A code that is used has passed its check. -/
theorem exists_checked_of_uses (hg : g.Sound)
    (hparser : Parser.ofGraph g root symbolPrefix options = .ok parser)
    (hprogram : ofParser parser debugHook headerName = .ok program)
    {code : Code} (huse : g.Uses root code) :
    ∃ id, (parser.machine.code id).kind = code.kind
      ∧ checkCode parser (parser.machine.code id) = .ok () := by
  obtain ⟨id, hid, hcode⟩ := (Parser.emittedCodes_used hg hparser).1 code huse
  exact ⟨id, hcode.kind, (parts_of_ofParser hprogram).checked_of_emitted hid⟩

/-- A state of the program skips by an integer. -/
theorem hasInteger_of_consume (hg : g.Sound)
    (hparser : Parser.ofGraph g root symbolPrefix options = .ok parser)
    (hprogram : ofParser parser debugHook headerName = .ok program)
    {n : NodeId} (hn : g.Reaches root n)
    (hkind : (g.node n).kind = .consume field) :
    g.HasInteger field := by
  obtain ⟨s, hs, hstate⟩ := (consumes_iff hg hparser).mpr ⟨n, hn, hkind⟩
  obtain ⟨state, -, hmade⟩ :=
    exists_of_mem_left (parts_of_ofParser hprogram).states hs
  obtain ⟨body, hbody, -⟩ := ok_of_bind hmade
  unfold Graph.HasInteger
  rw [← Parser.properties_of_ofGraph hparser]
  exact integer_of_consumes hbody hstate

/-- The source computes on the fields that the graph computes on. -/
theorem integers_declared_iff (hg : g.Built)
    (hparser : Parser.ofGraph g root symbolPrefix options = .ok parser)
    (hprogram : ofParser parser debugHook headerName = .ok program) :
    (∀ field, field ∈ program.integers ↔ g.Computes root field)
      ∧ (∀ code field, g.Uses root code → code.kind.field? = some field →
        field ∈ g.properties.toList.map (·.name))
      ∧ (∀ n field, g.Reaches root n → (g.node n).kind = .consume field →
        g.HasInteger field)
      ∧ (∀ code field options, g.Uses root code →
        code.kind = .mulAdd field options →
        g.HasInteger field)
      ∧ ((∀ field ∈ program.integers, g.HasInteger field)
          ↔ ¬ g.MasksPointer root) := by
  have hproperties := Parser.properties_of_ofGraph hparser
  have hintegers : ∀ field, field ∈ program.integers ↔ g.Computes root field :=
    fun field =>
    mem_integers_iff hg.sound hparser hprogram
  have hdeclared : ∀ code field, g.Uses root code →
      code.kind.field? = some field →
      field ∈ g.properties.toList.map (·.name) := by
    intro code field huse hfield
    obtain ⟨id, hsame, hcheck⟩ :=
      exists_checked_of_uses hg.sound hparser hprogram huse
    rw [← hproperties]
    exact mem_of_checkCode hcheck (hsame ▸ hfield)
  have hconsume : ∀ n field, g.Reaches root n →
      (g.node n).kind = .consume field →
      g.HasInteger field := fun n field hn hkind =>
    hasInteger_of_consume hg.sound hparser hprogram hn hkind
  have hmulAdd : ∀ code field options, g.Uses root code →
      code.kind = .mulAdd field options →
      g.HasInteger field := by
    intro code field options huse hkind
    obtain ⟨id, hsame, hcheck⟩ :=
      exists_checked_of_uses hg.sound hparser hprogram huse
    unfold Graph.HasInteger
    rw [← hproperties]
    exact integer_of_checkCode hcheck (hsame.trans hkind)
  refine ⟨hintegers, hdeclared, hconsume, hmulAdd, ?_, ?_⟩
  · rintro hall ⟨code, field, huse, hmasked, pointer, hpointer, hname, hnot⟩
    have hcomputes : g.Computes root field :=
      Or.inr ⟨code, huse, integer_of_masked hmasked⟩
    obtain ⟨property, hproperty, hsame, hint⟩ :=
      hall field ((hintegers field).mpr hcomputes)
    -- names tell properties apart
    obtain rfl := List.inj_on_of_nodup_map hg.propertiesNamed.distinct
      hpointer hproperty
      (hname.trans hsame.symm)
    exact nomatch hnot.symm.trans hint
  · intro hnone field hfield
    rcases (hintegers field).mp hfield with ⟨n, hn, hkind⟩
      | ⟨code, huse, hinteger⟩
    · exact hconsume n field hn hkind
    · rcases masked_or_mulAdd hinteger with hmasked | ⟨options, hkind⟩
      · obtain ⟨property, hproperty, hname⟩ :=
          List.mem_map.mp (hdeclared code field huse (field_of_masked hmasked))
        refine ⟨property, hproperty, hname, Bool.of_not_eq_false fun hnot =>
          hnone ?_⟩
        exact ⟨code, field, huse, hmasked, property, hproperty, hname, hnot⟩
      · exact hmulAdd code field options huse hkind

/-- At each byte "a" all flags but one are cleared. -/
def flags (type : FieldType) : Graph :=
  Build.replay [.property type "flags", .intrinsic (.and "flags" 1), .invoke 0,
    .node "next", .matchKey 1 [0x61] 0, .skipTo 1 1, .otherwise 0 1] {}

/-- The graph is one that calls of the builder make. -/
theorem built_flags (type : FieldType) : (flags type).Built := by
  cases type <;> exact Graph.Built.new.replay (by decide +kernel)

theorem properties_flags (type : FieldType) :
    (flags type).properties.toList = [⟨type, "flags"⟩] := by
  cases type <;> decide +kernel

/-- The parser of the flags. -/
def flagsParser (type : FieldType) : Parser where
  symbolPrefix := "p"
  machine.states := #[
    { name := "p__n_next", nodeName := "next", kind := .single
      edges := [⟨some (.byte 0x61), 1, false, none⟩]
      otherwise := some (.otherwise 0 false) },
    { name := "p__n_invoke_and_flags", nodeName := "invoke_and_flags",
      kind := .invoke 0
      otherwise := some (.otherwise 0 true) }]
  machine.codes := #[⟨"p__c_and_flags", .and "flags" 1⟩]
  root := 0
  properties := [⟨type, "flags"⟩]
  resumable := [0]

theorem ofGraph_flags (type : FieldType) :
    Parser.ofGraph (flags type) 1 "p" {} = .ok (flagsParser type) := by
  cbv

/-- The program of the flags, whatever their type. -/
def flagsProgram : Program where
  symbolPrefix := "p"
  headerName := "p"
  debugHook := none
  stateNames := #["p__n_next", "p__n_invoke_and_flags"]
  blobs := []
  matchers := []
  states := [
    ⟨0, true,
      [.waitForInput 0, .onByte .identity [(0x61, ⟨true, none, 1⟩)]
      ⟨true, none, 0⟩]⟩,
    ⟨1, false, [.call "p__c_and_flags" .plain [] ⟨false, none, 0⟩]⟩]
  functions := [⟨"p__c_and_flags", .plain,
    some [.assign (.field "flags") .keepBits (.number 1),
      .answer (.number 0)]⟩]
  root := 0
  slots := []

/-- The parser becomes this program. -/
theorem ofParser_flags (type : FieldType) :
    ofParser (flagsParser type) none none = .ok flagsProgram := by
  cbv

/-- Flags of eight bits are computed on. -/
theorem flags_integer :
    (∀ field ∈ flagsProgram.integers, (flags .i8).HasInteger field)
    ∧ ∃ field, field ∈ flagsProgram.integers := by
  obtain ⟨-, -, -, -, hiff⟩ :=
    integers_declared_iff (built_flags .i8) (ofGraph_flags .i8)
      (ofParser_flags .i8)
  refine ⟨hiff.mpr ?_, "flags", by decide⟩
  rintro ⟨code, field, -, -, property, hproperty, -, hpointer⟩
  rw [properties_flags, List.mem_singleton] at hproperty
  rw [hproperty] at hpointer
  cases hpointer

/-- Compilation succeeds where bits of a pointer are masked, which means
nothing in C. -/
theorem accepted_pointer :
    ∃ g root artifact parser program property body, g.Built
    ∧ Artifact.ofGraph g root "p" {} = .ok artifact
    ∧ Parser.ofGraph g root "p" {} = .ok parser
    ∧ ofParser parser none none = .ok program ∧ property ∈ g.properties.toList
    ∧ property.type.isInteger = false ∧ property.name ∈ program.integers
    ∧ ¬ g.HasInteger property.name
    ∧ ⟨"p__c_and_flags", .plain, some body⟩ ∈ program.functions
    ∧ ∀ v matched, run matched body (.start property v) = .error .pointer := by
  obtain ⟨artifact, hartifact⟩ :=
    Artifact.exists_of_program (by decide) (ofGraph_flags .ptr)
      (by rw [ofParser_flags]; rfl)
  refine ⟨flags .ptr, 1, artifact, flagsParser .ptr, flagsProgram,
    ⟨.ptr, "flags"⟩, _,
    built_flags .ptr, hartifact, ofGraph_flags .ptr, ofParser_flags .ptr, ?_,
      rfl, by decide, ?_,
    List.mem_singleton_self _, fun v matched => ?_⟩
  · rw [properties_flags]
    exact List.mem_singleton_self _
  · rintro ⟨property, hproperty, -, hint⟩
    rw [properties_flags, List.mem_singleton] at hproperty
    rw [hproperty] at hint
    cases hint
  · have hbody : intrinsicBody (flagsParser .ptr) (.and "flags" 1)
      = .ok _ := rfl
    exact run_masked_pointer hbody rfl rfl rfl matched

end Program

end Bytewise

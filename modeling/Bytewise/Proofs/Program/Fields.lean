/-
The fields of the state that the source uses.

Three parts of the source use fields: the bodies of states, the functions
of intrinsics, and the functions around a run. What each of them uses is
read off its statements (`fields`). A body uses what the kind of its state
asks for. An intrinsic uses its own field, which the check of its code has
found among the properties.
-/
import Bytewise.Program.Printer
import Bytewise.Proofs.Program.Bodies
import Bytewise.Proofs.Program.Emission

namespace Bytewise.Program

open Machine (StateKind)

-- ======================================================= fields in use

/-- The fields of the state that the lines of a statement name. -/
def Stmt.fields : Stmt → List String
  | .setCurrent _ => [currentField]
  | .setError .. => [errorField, reasonField, errorPosField]
  | .openSlot slot | .closeSlot slot => [positionField slot]
  | .setCallback slot _ => [callbackField slot]
  | .onSpanError .. => [errorField, errorPosField, currentField]
  | .measure field | .skipAll field _ | .skipRest field => [field]
  | _ => []

def Operand.fields : Operand → List String
  | .field name => [name]
  | .quotient a b | .difference a b | .masked a b
  | .equal a b => a.fields ++ b.fields
  | _ => []

def Refusal.fields (refusal : Refusal) : List String :=
  refusal.left.fields ++ refusal.right.fields

def Step.fields : Step → List String
  | .alias _ field => [field]
  | .assign target _ value => target.fields ++ value.fields
  | .refuseIf refusal => refusal.fields
  | .refuseBySign nonnegative negative => nonnegative.fields ++ negative.fields
  | .answer value => value.fields
  | _ => []

/-- The fields that the function of an intrinsic names. -/
def Function.fields (function : Function) : List String :=
  (function.body.getD []).flatMap Step.fields

/-- The fields that passing what is read of a span to its callback takes. -/
def flushFields (slot : SlotId) (callbacks : List String) : List String :=
  match callbacks with
  | [] => []
  | [_] => [positionField slot, errorField, errorPosField]
  | _ => [positionField slot, callbackField slot, errorField, errorPosField]

/-- The fields that the functions around a run name: where to go on and the
last error, and for each slot what it takes to restart and to flush it. -/
def outerFields (program : Program) : List String :=
  [currentField, errorField] ++ (List.range program.slots.length).map
    positionField
    ++ program.slots.zipIdx.flatMap fun (callbacks, slot) => flushFields
      slot callbacks

/-- The fields that the source of a program names. A comparison keeps its place
in a field. -/
def fields (program : Program) : List String :=
  program.matchers.map (fun _ => indexField) ++ program.states.flatMap
    (·.body.flatMap Stmt.fields)
    ++ program.functions.flatMap Function.fields ++ program.outerFields

-- ============================================================== checks

variable {parser : Parser} {field : String}

/-- A property that is found is one of the parser's. -/
theorem mem_of_property {property : Property}
    (h : Program.property parser field = .ok property) :
    field ∈ parser.properties.map (·.name) :=
  List.mem_map.mpr ⟨property, named_of_property h⟩

/-- The field of a code that passes its check is a property. -/
theorem mem_of_checkCode {code : Code} (h : checkCode parser code = .ok ())
    (hfield : code.kind.field? = some field) :
    field ∈ parser.properties.map (·.name) := by
  unfold checkCode at h
  cases hkind : code.kind with
  | external signature =>
      rw [hkind] at hfield
      cases hfield
  | _ =>
      rw [hkind] at h hfield
      obtain rfl := Option.some.inj hfield
      obtain ⟨property, hproperty, -⟩ := ok_of_bind h
      exact mem_of_property hproperty

/-- The steps of an intrinsic name its field and no other. -/
theorem field_of_mem_intrinsicBody {kind : CodeKind} {steps : List Step}
    (h : intrinsicBody parser kind = .ok steps)
    (hfield : field ∈ steps.flatMap Step.fields) :
    kind.field? = some field := by
  cases kind with
  | external signature =>
      obtain rfl := Except.ok.inj h
      cases hfield
  | mulAdd name options =>
      obtain ⟨property, -, hrest⟩ := ok_of_bind h
      split at hrest
      · obtain rfl := Except.ok.inj hrest
        have hname : field = name := by
          revert hfield
          unfold mulAddBody
          cases options.signed <;> cases property.type.signed?
            <;> cases options.max <;>
            simp [Step.fields, Refusal.fields, Operand.fields]
        rw [hname]
        rfl
      · cases hrest
  | _ =>
      obtain rfl := Except.ok.inj h
      have hname := hfield
      simp only [List.flatMap_cons, List.flatMap_nil, Step.fields,
        Operand.fields, List.append_nil,
        List.mem_singleton] at hname
      rw [hname]
      rfl

/-- The function of a code that passes its check names properties only. -/
theorem mem_of_functionOf {code : Code} {function : Function}
    (hcheck : checkCode parser code = .ok ())
    (h : functionOf parser code = .ok function)
    (hfield : field ∈ function.fields) :
    field ∈ parser.properties.map (·.name) := by
  unfold functionOf at h
  split at h
  · obtain rfl := Except.ok.inj h
    cases hfield
  · obtain ⟨steps, hsteps, hrest⟩ := ok_of_bind h
    obtain rfl := Except.ok.inj hrest
    exact mem_of_checkCode hcheck (field_of_mem_intrinsicBody hsteps hfield)

/-- A code that the body of a state mentions has passed its check. -/
theorem checked_of_mentioned {own : StateId} {state : Machine.State}
    {body : List Stmt} (h : kindBody parser own state = .ok body) {id : CodeId}
    (hid : id ∈ mentionedCodes parser state) :
    checkCode parser (parser.machine.code id) = .ok () := by
  have hbody := bodyOf_of_kindBody h
  unfold mentionedCodes at hid
  generalize state.kind = kind at hbody hid
  cases hbody with
  | invoke next checked keys => exact List.mem_singleton.mp hid ▸ checked
  | spanStart next alone =>
      dsimp only at hid
      rw [alone] at hid
      cases hid
  | sharedStart next shared checked =>
      dsimp only at hid
      rw [shared] at hid
      exact List.mem_singleton.mp hid ▸ checked
  | spanEnd next checked => exact List.mem_singleton.mp hid ▸ checked
  | _ => cases hid

/-- All codes that become functions have passed their check. -/
theorem Parts.checked_of_emitted {debugHook : Option String}
    {program : Program} (h : Parts parser debugHook program) {id : CodeId}
    (hid : id ∈ emittedCodes parser) :
    checkCode parser (parser.machine.code id) = .ok () := by
  rcases List.mem_append.mp (List.mem_eraseDups.mp hid) with hslot | hmentioned
  · exact h.checked id hslot
  · obtain ⟨s, hs, hmentioned⟩ := List.mem_flatMap.mp hmentioned
    obtain ⟨state, -, hstate⟩ := exists_of_mem_left h.states hs
    obtain ⟨body, hbody, -⟩ := ok_of_bind hstate
    exact checked_of_mentioned hbody hmentioned

-- ============================================================== bodies

/-- Waiting for input uses no field. -/
theorem fields_waitIfConsuming (own : StateId) (edge : Machine.Edge) :
    (waitIfConsuming own edge).flatMap Stmt.fields = [] := by
  unfold waitIfConsuming
  split <;> rfl

theorem fields_vectorSkip (own : StateId) (state : Machine.State)
    (otherwise : Machine.Edge) :
    (vectorSkip own state otherwise).flatMap Stmt.fields = [] := by
  unfold vectorSkip
  split
  · split
    · dsimp only
      split <;> rfl
    · rfl
  · rfl

/-- The fields that the body of a state of a kind names. -/
def kindFields (parser : Parser) : StateKind → List String
  | .consume field => [field]
  | .error ..
  | .pause .. => [errorField, reasonField, errorPosField, currentField]
  | .spanStart slot _ =>
      positionField slot :: if parser.isSharedSlot slot then
        [callbackField slot] else []
  | .spanEnd slot _ =>
    [positionField slot, errorField, errorPosField, currentField]
  | _ => []

/-- A body uses what the kind of its state asks for. -/
theorem mem_kindFields_of_kindBody {own : StateId} {state : Machine.State}
    {body : List Stmt} (h : kindBody parser own state = .ok body)
    (hfield : field ∈ body.flatMap Stmt.fields) :
    field ∈ kindFields parser state.kind := by
  have hbody := bodyOf_of_kindBody h
  generalize state.kind = kind at hbody ⊢
  cases hbody with
  | consume found integer next => simpa [Stmt.fields, kindFields] using hfield
  | empty next =>
      rw [List.flatMap_append, fields_waitIfConsuming] at hfield
      cases hfield
  | error => exact hfield
  | pause next => exact hfield
  | table next keys =>
      rw [List.flatMap_append, List.flatMap_append, fields_vectorSkip]
        at hfield
      cases hfield
  | spanStart next alone =>
      rw [kindFields, alone]
      exact hfield
  | sharedStart next shared checked =>
      rw [kindFields, shared]
      exact hfield
  | spanEnd next checked =>
      rw [List.flatMap_append, fields_waitIfConsuming] at hfield
      -- a position is taken out of its slot in two lines, and named in both
      simpa [Stmt.fields, kindFields] using hfield
  | _ => cases hfield

end Bytewise.Program

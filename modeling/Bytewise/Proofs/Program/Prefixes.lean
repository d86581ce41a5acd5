/-
What a prefix does to a parser and its program.

Nothing but names depends on it. What forbids a program is told with the
names of states, so the causes may differ, but not in what kind they are:
bodies of states that differ in name fail with the same codes, or both
can be generated, and so can the functions of codes.
-/
import Bytewise.Program.OfParser
import Bytewise.Proofs.Parser.Prefixes

namespace Bytewise

-- ========================================================== same codes

/-- Both fail, with causes of one code, or both answer, and then so. -/
def SameCode {α β : Type} (R : α → β → Prop) (x : Except Cause α)
    (x' : Except Cause β) : Prop :=
  Agree R (x.mapError Cause.code) (x'.mapError Cause.code)

namespace SameCode

variable {α α' β β' : Type} {R : α → α' → Prop} {S : β → β' → Prop}

theorem ok {a : α} {a' : α'} (h : R a a') : SameCode R (.ok a) (.ok a') :=
  Agree.ok h

theorem error {cause cause' : Cause} (h : cause.code = cause'.code) :
    SameCode R (.error cause) (.error cause') := by
  show Agree R (.error cause.code) (.error cause'.code)
  rw [h]
  exact .error _

theorem refl (x : Except Cause α) : SameCode Eq x x :=
  Agree.refl (fun _ => rfl) _

/-- A sequence fails with the codes of its steps. -/
theorem bind {x : Except Cause α} {x' : Except Cause α'}
    {f : α → Except Cause β} {f' : α' → Except Cause β'} (hx : SameCode R x x')
    (hf : ∀ a a', R a a' → SameCode S (f a) (f' a')) :
    SameCode S (x >>= f) (x' >>= f') := by
  unfold SameCode
  rw [mapError_bind, mapError_bind]
  exact Agree.bind hx hf

/-- The chains go on from one answer. -/
theorem bind_eq {x : Except Cause α} {f : α → Except Cause β}
    {f' : α → Except Cause β'}
    (hf : ∀ a, SameCode S (f a) (f' a)) : SameCode S (x >>= f) (x >>= f') :=
  (refl x).bind fun a _ heq => heq ▸ hf a

/-- Going through lists that match fails with the codes of the steps. -/
theorem mapM {f : α → Except Cause β} {f' : α' → Except Cause β'} {xs : List α}
    {xs' : List α'} (hxs : List.Forall₂ R xs xs')
    (hf : ∀ a a', R a a' → SameCode S (f a) (f' a')) :
    SameCode (List.Forall₂ S) (xs.mapM f) (xs'.mapM f') := by
  unfold SameCode
  rw [mapError_mapM, mapError_mapM]
  exact Agree.mapM hxs hf

/-- The elements are mapped one by one. -/
theorem mapM_eq {f : α → Except Cause β} {f' : α → Except Cause β'}
    (xs : List α) (hf : ∀ a, SameCode S (f a) (f' a)) :
    SameCode (List.Forall₂ S) (xs.mapM f) (xs.mapM f') :=
  mapM (List.forall₂_same.mpr fun _ _ => rfl) fun a _ heq => heq ▸ hf a

end SameCode

namespace Parser.Renamed

variable {p q : String} {parser parser' : Parser}

-- ================================================================ codes

/-- The prefix makes no difference to properties. -/
theorem property (h : parser.Renamed p q parser') (field : String) :
    Program.property parser' field = Program.property parser field := by
  unfold Program.property
  rw [h.properties]

theorem checkCode (h : parser.Renamed p q parser') (id : CodeId) :
    Program.checkCode parser' (parser'.machine.code id)
      = Program.checkCode parser (parser.machine.code id) := by
  unfold Program.checkCode
  rw [h.machine.code_kind]
  simp only [h.property]

theorem codeName (h : parser.Renamed p q parser') (id : CodeId) :
    SameCode (fun _ _ => True) (Program.codeName parser id)
        (Program.codeName parser' id) := by
  unfold Program.codeName
  dsimp only
  rw [h.checkCode]
  exact .bind_eq fun _ => .ok trivial

theorem functionOf (h : parser.Renamed p q parser') (id : CodeId) :
    SameCode (fun _ _ => True)
      (Program.functionOf parser (parser.machine.code id))
      (Program.functionOf parser' (parser'.machine.code id)) := by
  have hbody : ∀ kind, Program.intrinsicBody parser' kind
      = Program.intrinsicBody parser kind := by
    intro kind
    cases kind with
    | mulAdd field options =>
        unfold Program.intrinsicBody
        simp only [h.property]
    | _ => rfl
  unfold Program.functionOf
  rw [h.machine.code_kind, hbody]
  split
  · exact .ok trivial
  · exact .bind_eq fun _ => .ok trivial

theorem isSharedSlot (h : parser.Renamed p q parser') (slot : SlotId) :
    parser'.isSharedSlot slot = parser.isSharedSlot slot := by
  unfold Parser.isSharedSlot
  rw [h.slots]

-- =============================================================== states

/-- The body of a state can be generated under both names, or under none of
them. -/
theorem kindBody (h : parser.Renamed p q parser') (own : StateId)
    (state : Machine.State) (name : String) :
    SameCode (fun _ _ => True) (Program.kindBody parser own state)
      (Program.kindBody parser' own { state with name }) := by
  unfold Program.kindBody
  dsimp only
  cases state.kind with
  | consume field =>
      unfold Program.consumeBody
      dsimp only
      rw [h.property]
      refine .bind_eq fun _ => .bind_eq fun _ => ?_
      exact .bind_eq fun _ => .ok trivial
  | empty => exact .bind_eq fun _ => .ok trivial
  | error code reason => exact .ok trivial
  | pause code reason => exact .bind_eq fun _ => .ok trivial
  | invoke callee =>
      unfold Program.invokeBody
      refine .bind_eq fun _ => (h.codeName callee).bind fun _ _ _ => ?_
      refine .bind (.mapM_eq (S := fun _ _ => True) _ fun edge => ?_)
        fun _ _ _ => .ok trivial
      split
      · exact .ok trivial
      · exact .error rfl
  | sequence =>
      unfold Program.sequenceBody
      refine .bind_eq fun _ => ?_
      dsimp only
      split
      · split
        · exact .ok trivial
        · exact .error rfl
      · exact .error rfl
  | single =>
      unfold Program.singleBody
      refine .bind_eq fun _ => ?_
      refine .bind (.mapM_eq (S := fun _ _ => True) _ fun edge => ?_)
        fun _ _ _ => .ok trivial
      split
      · exact .ok trivial
      · exact .error rfl
  | table =>
      unfold Program.tableBody
      refine .bind_eq fun _ => ?_
      refine .bind (.mapM_eq (S := fun _ _ => True) _ fun (edge, index) => ?_)
          fun _ _ _ =>
        .ok trivial
      dsimp only
      split
      · split
        · exact .ok trivial
        · exact .error rfl
      · exact .error rfl
  | spanStart slot callback =>
      unfold Program.spanStartBody
      dsimp only
      rw [h.isSharedSlot]
      refine .bind_eq fun _ => ?_
      split
      · exact (h.codeName callback).bind fun _ _ _ => .ok trivial
      · exact .ok trivial
  | spanEnd slot callback =>
      unfold Program.spanEndBody
      exact .bind_eq fun _ => (h.codeName callback).bind fun _ _ _ =>
        .ok trivial

theorem stateOf (h : parser.Renamed p q parser') (debugHook : Option String)
    (id : StateId) :
    SameCode (fun _ _ => True) (Program.stateOf parser debugHook id)
      (Program.stateOf parser' debugHook id) := by
  unfold Program.stateOf
  rw [h.machine.state id]
  exact (h.kindBody id _ _).bind fun _ _ _ => .ok trivial

theorem emissionOrder (h : parser.Renamed p q parser') :
    Program.emissionOrder parser' = Program.emissionOrder parser := by
  have hedges : ∀ id, Program.emittedEdges (parser'.machine.state id)
      = Program.emittedEdges (parser.machine.state id) := fun id => by
    rw [h.machine.state id]
    rfl
  unfold Program.emissionOrder
  simp only [hedges, h.machine.states.size, h.root]

theorem mentionedCodes (h : parser.Renamed p q parser') (id : StateId) :
    Program.mentionedCodes parser' (parser'.machine.state id)
      = Program.mentionedCodes parser (parser.machine.state id) := by
  unfold Program.mentionedCodes
  rw [h.machine.state id]
  simp only [h.isSharedSlot]

-- ============================================================= programs

/-- The program fails for a cause of the same code, or has as many states. -/
theorem ofParser (h : parser.Renamed p q parser')
    (debugHook headerName : Option String) :
    SameCode (fun program program' => program.stateCount = program'.stateCount)
      (Program.ofParser parser debugHook headerName)
      (Program.ofParser parser' debugHook headerName) := by
  unfold Program.ofParser
  dsimp only
  rw [h.emissionOrder, ← h.slots]
  simp only [h.checkCode, h.mentionedCodes]
  refine .bind_eq fun _ => ?_
  refine .bind (.mapM_eq _ fun id => h.stateOf debugHook id)
    fun states states' hstates => ?_
  refine .bind (.mapM_eq _ fun id => h.functionOf id) fun _ _ _ => ?_
  exact .ok hstates.length_eq

end Parser.Renamed

/-- The prefix only renames. With another one a graph fails for the same cause,
or its parser has other names of states and intrinsics, which differ in nothing
but the prefix. The same callbacks are to be linked then, and its program fails
for a cause of the same code, or has as many states. -/
theorem Parser.prefix_renames (g : Graph) (root : NodeId) (options : Options)
    (p q : String) :
    Bytewise.Agree (fun parser parser' => parser.Renamed p q parser'
        ∧ parser'.machine.callbacks = parser.machine.callbacks
        ∧ ∀ debugHook headerName, SameCode
          (fun program program' => program.stateCount = program'.stateCount)
          (Program.ofParser parser debugHook headerName)
          (Program.ofParser parser' debugHook headerName))
      (Parser.ofGraph g root p options) (Parser.ofGraph g root q options) :=
  (Parser.ofGraph_renamed g root options p q).mono fun _ _ h =>
    ⟨h, h.machine.callbacks, h.ofParser⟩

end Bytewise

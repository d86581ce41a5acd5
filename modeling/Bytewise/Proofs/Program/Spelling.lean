/-
How programs are spelled.

The prefix is an identifier, and every name that a parser makes behind it is
a word: those of states and those of intrinsics. So is the name of every
field. What is left are the names that the user has given, those of
callbacks, of the debug hook and of the header: a source takes them over as
they are, and nothing checks what they read like.
-/
import Bytewise.Proofs.Program.SourceFields
import Bytewise.Proofs.Program.Symbols

namespace Bytewise

open Text

namespace Program

variable {parser : Parser} {program : Program}
  {debugHook headerName : Option String} {text field : String}

-- ========================================================== intrinsics

/-- The types, the limits and the comments of an intrinsic are plain. -/
theorem plain_of_mem_intrinsicBody {kind : CodeKind} {steps : List Step}
    (h : intrinsicBody parser kind = .ok steps)
    (htext : text ∈ steps.flatMap Step.texts) :
    IsPlain text ∧ accesses text = [] := by
  cases kind with
  | external signature =>
      obtain rfl := Except.ok.inj h
      cases htext
  | mulAdd name options =>
      obtain ⟨property, -, hrest⟩ := ok_of_bind h
      split at hrest
      · rename_i low high hlimits
        obtain rfl := Except.ok.inj hrest
        have hall : ∀ text ∈ [low.text, high.text, "Multiplication overflow",
            "Addition overflow",
              "Enforce maximum"] ++ property.type.signed?.toList,
            IsPlain text ∧ accesses text = [] := by
          cases htype : property.type <;> cases hsigned : options.signed <;>
            rw [htype, hsigned] at hlimits <;> cases hlimits <;> decide
        refine hall text ?_
        revert htext
        unfold mulAddBody
        cases options.signed <;> cases property.type.signed? <;>
          cases options.max <;>
          simp [Step.texts, Refusal.texts, Operand.texts] <;> tauto
      · cases hrest
  | _ =>
      obtain rfl := Except.ok.inj h
      simp [Step.texts, Operand.texts] at htext

/-- So are those of every function. -/
theorem plain_of_functionOf {code : Code} {function : Function}
    (h : functionOf parser code = .ok function) {step : Step}
    (hstep : step ∈ function.body.getD [])
    (htext : text ∈ step.texts) : IsPlain text ∧ accesses text = [] := by
  unfold functionOf at h
  split at h
  · obtain rfl := Except.ok.inj h
    cases hstep
  · obtain ⟨steps, hsteps, hrest⟩ := ok_of_bind h
    obtain rfl := Except.ok.inj hrest
    exact plain_of_mem_intrinsicBody hsteps
      (List.mem_flatMap.mpr ⟨step, hstep, htext⟩)

-- ========================================================= given names

/-- The names that the user has given: those of callbacks, of the debug hook
and of the header. -/
def givenNames (program : Program) : List String :=
  program.callbackNames ++ program.debugHook.toList ++ [program.headerName]

/-- The name of a code that is called is that of a function. -/
theorem Parts.mem_functionNames (h : Parts parser debugHook program)
    {id : CodeId} (hid : id ∈ emittedCodes parser) :
    (parser.machine.code id).name ∈ program.functions.map (·.name) := by
  rw [functionNames_eq h]
  exact List.mem_map_of_mem hid

/-- The name of a function that is no word is one of the user's. -/
theorem Parts.given_of_function (h : Parts parser debugHook program)
    (hintrinsics : ∀ code ∈ parser.machine.intrinsics, IsWord code.name)
    (htext : text ∈ program.functions.map (·.name))
    (hfield : field ∈ accesses text) : text ∈ program.givenNames := by
  obtain ⟨function, hmem, rfl⟩ := List.mem_map.mp htext
  cases hbody : function.body.isSome with
  | false =>
      exact List.mem_append_left _ (List.mem_append_left _ (List.mem_map_of_mem
        (List.mem_filter.mpr ⟨hmem, by simp [hbody]⟩)))
  | true =>
      have hname : function.name ∈ program.intrinsicNames :=
        List.mem_map_of_mem (List.mem_filter.mpr ⟨hmem, hbody⟩)
      obtain ⟨id, hinternal, hid⟩ := mem_intrinsicNames h hname
      have hinside := lt_of_internal hinternal
      have hcode : parser.machine.code id ∈ parser.machine.intrinsics := by
        refine List.mem_filter.mpr ⟨?_, by simp [hinternal]⟩
        simp [Machine.code, Array.getD, hinside]
      rw [← hid, (hintrinsics _ hcode).accesses] at hfield
      cases hfield

/-- The texts of a body are fixed, or names of functions. -/
theorem texts_of_kindBody {s : StateId} {body : List Stmt}
    (h : kindBody parser s (parser.machine.state s) = .ok body)
    (htext : text ∈ body.flatMap Stmt.texts) : accesses text = []
      ∨ ∃ id ∈ mentionedCodes parser (parser.machine.state s),
        text = (parser.machine.code id).name := by
  have hbody := bodyOf_of_kindBody h
  have hwait : ∀ edge, (waitIfConsuming s edge).flatMap Stmt.texts = [] := by
    intro edge
    unfold waitIfConsuming
    split <;> rfl
  have hskip : ∀ edge, (vectorSkip s (parser.machine.state s) edge).flatMap
      Stmt.texts = [] := by
    intro edge
    unfold vectorSkip
    split
    · split
      · dsimp only
        split <;> rfl
      · rfl
    · rfl
  unfold mentionedCodes
  generalize (parser.machine.state s).kind = kind at hbody ⊢
  cases hbody with
  | @consume _ property _ found integer next =>
      have hall : ∀ text ∈ ["size_t", "avail", property.type.declared, "need"],
          accesses text = [] := by
        cases property.type <;> decide
      exact .inl (hall text (by simpa [Stmt.texts] using htext))
  | sequence next first key =>
      have hall : ∀ text ∈ ["llparse_match_t", "match_seq"],
          accesses text = [] := by decide
      exact .inl (hall text (by simpa [Stmt.texts] using htext))
  | @invoke callee _ _ next checked keys =>
      have hname : text = (parser.machine.code callee).name := by
        simpa [Stmt.texts] using htext
      exact .inr ⟨callee, List.mem_cons_self, hname⟩
  | empty next =>
      rw [List.flatMap_append, hwait] at htext
      cases htext
  | table next keys =>
      rw [List.flatMap_append, List.flatMap_append, hskip] at htext
      cases htext
  | @sharedStart slot callback _ next shared checked =>
      have hname : text = (parser.machine.code callback).name := by
        simpa [Stmt.texts] using htext
      exact .inr ⟨callback, by simp [shared], hname⟩
  | @spanEnd _ callback _ next checked =>
      rw [List.flatMap_append, hwait] at htext
      have hall : ∀ text ∈ ["const unsigned char*", "start", "int", "err"],
          accesses text = [] := by decide
      have hmem : text ∈ ["const unsigned char*", "start", "int", "err"]
          ∨ text = (parser.machine.code callback).name := by
        simpa [Stmt.texts, or_assoc] using htext
      exact hmem.imp (hall text) fun hname =>
        ⟨callback, List.mem_cons_self, hname⟩
  | _ => cases htext

/-- What reads as an access in a text that a source takes over, it does so
in a name of the user's. -/
theorem Parts.given_of_texts (h : Parts parser debugHook program)
    (hintrinsics : ∀ code ∈ parser.machine.intrinsics, IsWord code.name)
    (htext : text ∈ program.texts) (hfield : field ∈ accesses text) :
    text ∈ program.givenNames := by
  have hcode : ∀ id ∈ emittedCodes parser,
      text = (parser.machine.code id).name → text ∈ program.givenNames := by
    rintro id hid rfl
    exact h.given_of_function hintrinsics (h.mem_functionNames hid) hfield
  have hemitted : ∀ id, (id ∈ parser.slots.flatten
      ∨ ∃ s ∈ emissionOrder parser,
        id ∈ mentionedCodes parser (parser.machine.state s)) →
      id ∈ emittedCodes parser := fun id hid =>
    List.mem_eraseDups.mpr (List.mem_append.mpr
      (hid.imp_right List.mem_flatMap.mpr))
  simp only [texts, List.mem_append] at htext
  rcases htext with (((hheader | hhook) | hstate) | hfunction) | hslot
  · exact List.mem_append_right _ hheader
  · exact List.mem_append_left _ (List.mem_append_right _ hhook)
  · obtain ⟨state, hmem, htext⟩ := List.mem_flatMap.mp hstate
    obtain ⟨s, hs, hmade⟩ := exists_of_mem_right h.states hmem
    obtain ⟨body, hbody, hrest⟩ := ok_of_bind hmade
    obtain rfl := Except.ok.inj hrest
    rw [List.flatMap_append] at htext
    rcases List.mem_append.mp htext with htrace | htext
    · have hhook : text ∈ debugHook.toList := by
        cases debugHook with
        | none => cases htrace
        | some hook => simpa [Stmt.texts] using htrace
      rw [← h.hook] at hhook
      exact List.mem_append_left _ (List.mem_append_right _ hhook)
    · rcases texts_of_kindBody hbody htext with hnone | ⟨id, hid, hname⟩
      · rw [hnone] at hfield
        cases hfield
      · exact hcode id (hemitted id (.inr ⟨s, hs, hid⟩)) hname
  · exact h.given_of_function hintrinsics hfunction hfield
  · rw [h.slots] at hslot
    obtain ⟨names, hnames, htext⟩ := List.mem_flatten.mp hslot
    obtain ⟨callbacks, hcallbacks, rfl⟩ := List.mem_map.mp hnames
    obtain ⟨id, hid, rfl⟩ := List.mem_map.mp htext
    exact hcode id (hemitted id (.inl (List.mem_flatten.mpr
      ⟨callbacks, hcallbacks, hid⟩))) rfl

end Program

end Bytewise

/-
The fields that a source accesses.

Part by part the lines of a source access what the part is listed with, and
what reads as an access within the names that it takes over. The list of a
program's fields is so read off its text: all that the text accesses is
listed (`Spelled.listed`), and all that is listed, the text accesses
(`Spelled.accessed`).
-/
import Bytewise.Proofs.Program.Shown

namespace Bytewise

namespace Program

open Text

variable {program : Program} {field : String}

/-- What the text includes accesses nothing but what the name of the header
says. -/
theorem accesses_preamble (hsymbol : IsWord program.symbolPrefix) :
    program.preamble.flatMap accesses = accesses program.headerName := by
  have hcallback : accesses ("typedef int (*" ++ program.symbolPrefix
      ++ "__span_cb)(") = [] :=
    accesses_of_quiet (by simp [hsymbol.arrow_notMem])
  have harguments : accesses ("             " ++ program.type
      ++ "*, const unsigned char*, const unsigned char*);") = [] :=
    accesses_of_quiet (by simp [type, stateType, hsymbol.arrow_notMem])
  have hinclude : accesses ("#include \"" ++ program.headerName ++ ".h\"")
      = accesses program.headerName := by
    simp [accesses, accessesFrom, isSeparator, isWordChar]
  simp only [preamble, List.flatMap_cons, List.flatMap_nil, hcallback,
    harguments, hinclude]
  simp [accesses, accessesFrom, isWordChar]

-- =========================================================== parts

section parts

variable (htype : IsWord program.type)
include htype

/-- A function accesses its fields, and what its texts say. -/
theorem mem_accesses_functionLines {function : Function}
    (hwords : ∀ field ∈ function.fields, IsWord field) :
    field ∈ (program.functionLines function).flatMap accesses
      ↔ field ∈ function.fields ∨ field ∈ function.texts.flatMap accesses := by
  have hhead : ["int " ++ function.name ++ "(",
      "    " ++ program.type
        ++ "* s, const unsigned char* p,"].flatMap accesses
        = accesses function.name := by
    simp [accesses, accessesFrom, isSeparator, isWordChar, htype]
  have hends : ["    const unsigned char* endp,", "    int value);"].flatMap
        accesses = []
      ∧ ["    const unsigned char* endp);"].flatMap accesses = []
      ∧ ["    const unsigned char* endp,", "    int match) \x7b"].flatMap
        accesses = []
      ∧ ["    const unsigned char* endp) \x7b"].flatMap accesses = []
      ∧ ["\x7d"].flatMap accesses = [] := by
    decide
  have hend : ∀ {p : Prop} [Decidable p] (a b : List String),
      a.flatMap accesses = [] → b.flatMap accesses = [] →
      (if p then a else b).flatMap accesses = [] := by
    intro p _ a b ha hb
    split <;> assumption
  unfold functionLines Function.texts
  unfold Function.fields at hwords ⊢
  cases hbody : function.body with
  | none =>
      simp only [List.flatMap_append, hhead, hend _ _ hends.1 hends.2.1]
      simp
  | some steps =>
      rw [hbody] at hwords
      have hsteps : field ∈ (steps.flatMap stepLines).flatMap accesses
          ↔ field ∈ steps.flatMap Step.fields
            ∨ field ∈ (steps.flatMap Step.texts).flatMap accesses := by
        have hstep : ∀ step ∈ steps, field ∈ (stepLines step).flatMap accesses
            ↔ field ∈ step.fields ∨ field ∈ step.texts.flatMap accesses :=
          fun step hstep => mem_accesses_stepLines fun field hfield =>
            hwords field (List.mem_flatMap.mpr ⟨step, hstep, hfield⟩)
        rw [List.flatMap_assoc, List.flatMap_assoc, List.mem_flatMap,
          List.mem_flatMap, List.mem_flatMap, ← exists_or]
        refine exists_congr fun step => ?_
        rw [← and_or_left]
        exact and_congr_right (hstep step)
      simp only [List.flatMap_append, hhead, hends.2.2.2.2,
        hend _ _ hends.2.2.1 hends.2.2.2.1, List.append_nil, List.mem_append,
        hsteps, List.flatMap_cons, Option.getD_some]
      exact or_left_comm

/-- The declaration of the debug hook accesses what its name says. -/
theorem accesses_debugHookLines :
    program.debugHookLines.flatMap accesses
      = program.debugHook.toList.flatMap accesses := by
  unfold debugHookLines
  cases program.debugHook <;>
    simp [accesses, accessesFrom, isSeparator, isWordChar, htype]

omit htype in
theorem accesses_blobLines (blob : Blob) :
    (program.blobLines blob).flatMap accesses = [] := by
  have hrows := accesses_tableRows 11
    (blob.bytes.map byteEntry)
    (List.forall_mem_map.mpr fun b _ => accesses_byteEntry b)
  have hhead : ∀ align : String, '>' ∉ align.toList →
      accesses ("static const unsigned char " ++ align
        ++ program.blobName blob ++ "[] = \x7b") = [] :=
    fun align halign => accesses_of_quiet (by simp [blobName, halign])
  have hfixed : accesses "#ifdef __SSE4_2__" = [] ∧ accesses "\x7d;" = []
      ∧ accesses "#endif  /* __SSE4_2__ */" = [] := by decide
  unfold blobLines
  rcases blob with ⟨bytes, _ | n⟩
  · simp only [Option.isSome_none, Bool.false_eq_true, if_false,
      List.flatMap_append, List.flatMap_cons, List.flatMap_nil,
      hhead "" (by decide), hrows, hfixed, List.append_nil]
  · simp only [Option.isSome_some, if_true, List.flatMap_append,
      List.flatMap_cons, List.flatMap_nil,
      hhead ("ALIGN(" ++ toString n ++ ") ") (by simp), hrows, hfixed,
      List.append_nil]

omit htype in
theorem accesses_blobsLines : program.blobsLines.flatMap accesses = [] := by
  unfold blobsLines
  rw [List.flatMap_append, List.flatMap_assoc]
  refine List.append_eq_nil_iff.mpr ⟨List.flatMap_eq_nil_iff.mpr
    fun blob _ => accesses_blobLines blob, ?_⟩
  split <;> rfl

/-- A comparison accesses the field that keeps its place. -/
theorem mem_accesses_matcherLines (transform : Transform) :
    field ∈ (program.matcherLines transform).flatMap accesses
      ↔ field = indexField := by
  have hname : '>' ∉ (matcherName transform).toList := by
    cases transform <;> decide
  have hhead : accesses ("static llparse_match_t " ++ matcherName transform
      ++ "(") = [] := accesses_of_quiet (by simp [hname])
  have hstate : accesses ("    " ++ program.type
      ++ "* s, const unsigned char* p,") = [] :=
    accesses_of_quiet (by simp [htype.arrow_notMem])
  have hcurrent : accesses ("    current = " ++ transform.render "*p" ++ ";")
      = [] := by
    cases transform <;> decide
  simp only [matcherLines, List.flatMap_cons, List.flatMap_nil, hhead, hstate,
    hcurrent]
  simp [accesses, accessesFrom, isWordChar, indexField]

theorem mem_accesses_matchersLines :
    field ∈ program.matchersLines.flatMap accesses
      ↔ field ∈ program.matchers.map fun _ => indexField := by
  have hmatchers : field ∈ (program.matchers.flatMap
        program.matcherLines).flatMap accesses
      ↔ field ∈ program.matchers.map fun _ => indexField := by
    rw [List.flatMap_assoc, List.mem_flatMap, List.mem_map]
    refine exists_congr fun transform => and_congr_right fun _ => ?_
    rw [mem_accesses_matcherLines htype]
    exact eq_comm
  unfold matchersLines
  cases hnone : program.matchers.isEmpty with
  | true => simp [List.isEmpty_iff.mp hnone]
  | false =>
      rw [if_neg Bool.false_ne_true, List.flatMap_append, List.mem_append,
        hmatchers]
      simp [accesses, accessesFrom, isWordChar]

omit htype in
/-- The enumeration of states accesses nothing. -/
theorem accesses_stateEnumLines
    (hlabels : ∀ s, IsWord (program.stateLabel s)) :
    program.stateEnumLines.flatMap accesses = [] := by
  refine List.flatMap_eq_nil_iff.mpr fun line hline => accesses_of_quiet ?_
  have hfixed :
      ∀ line ∈ ["enum llparse_state_e \x7b", "  " ++ errorLabel ++ ",",
      "\x7d;", "typedef enum llparse_state_e llparse_state_t;", ""],
      '>' ∉ line.toList := by decide
  simp only [stateEnumLines, List.mem_append, List.mem_map] at hline
  rcases hline with (hline | ⟨state, -, rfl⟩) | hline
  · exact hfixed line (List.mem_append_left ["\x7d;", _, ""] hline)
  · have hlabel := (hlabels state.id).arrow_notMem
    simp [hlabel]
  · exact hfixed line (List.mem_append_right [_, _] hline)

/-- Making a state ready accesses where to go on. -/
theorem accesses_initLines (hsymbol : IsWord program.symbolPrefix)
    (hlabels : ∀ s, IsWord (program.stateLabel s)) :
    program.initLines.flatMap accesses = [currentField] := by
  have hhead : accesses ("int " ++ program.symbolPrefix ++ "_init("
      ++ program.type ++ "* s) \x7b") = [] :=
    accesses_of_quiet (by simp [hsymbol.arrow_notMem, htype.arrow_notMem])
  have hcurrent := accesses_currentLine hlabels "  "
    (by simp [IsBlank]) (.state program.root)
  have hfixed : accesses "  memset(s, 0, sizeof(*s));" = []
      ∧ accesses "  return 0;" = [] ∧ accesses "\x7d" = []
      ∧ accesses "" = [] := by decide
  simp only [initLines, List.flatMap_cons, List.flatMap_nil, hhead, hcurrent,
    hfixed, List.nil_append, List.append_nil]

end parts

section execute

variable (hsymbol : IsWord program.symbolPrefix)
include hsymbol

omit hsymbol in
theorem isWord_positionField (slot : SlotId) : IsWord (positionField slot) :=
  IsWord.append (by decide) (isWord_toString slot)

omit hsymbol in
theorem isWord_callbackField (slot : SlotId) : IsWord (callbackField slot) :=
  IsWord.append (by decide) (isWord_toString slot)

omit hsymbol in
/-- Restarting a slot accesses its position. -/
theorem mem_accesses_restartLines {slot : SlotId} :
    field ∈ (restartLines slot).flatMap accesses
      ↔ field = positionField slot := by
  have hslot := isWord_positionField slot
  simp [restartLines, accesses, accessesFrom, isSeparator, isWordChar, hslot]

/-- Passing what is read of a span to its callback takes the fields that it
is listed with, and prints the callback if there is only one. -/
theorem mem_accesses_flushLines {slot : SlotId} {callbacks : List String}
    (h : field ∈ (program.flushLines slot callbacks).flatMap accesses) :
    field ∈ flushFields slot callbacks
      ∨ field ∈ callbacks.flatMap accesses := by
  have hslot := isWord_positionField slot
  have hcallback := isWord_callbackField slot
  have hlines : ∀ callback, [
      "  if (s->" ++ positionField slot ++ " != NULL) \x7b",
      "    int error;",
      "",
      "    error = " ++ callback ++ "(s, s->" ++ positionField slot
        ++ ", (const unsigned char*) endp);",
      "    if (error != 0) \x7b",
      "      s->" ++ errorField ++ " = error;",
      "      s->" ++ errorPosField ++ " = endp;",
      "      return error;",
      "    \x7d",
      "  \x7d"].flatMap accesses
        = [positionField slot] ++ accesses callback
          ++ [positionField slot, errorField, errorPosField] := by
    simp [accesses, accessesFrom, isSeparator, isWordChar, hslot, errorField,
      errorPosField]
  rcases callbacks with _ | ⟨callback, _ | ⟨other, rest⟩⟩
  · cases h
  · rw [flushLines, hlines] at h
    simp only [List.mem_append, List.mem_cons,
      List.not_mem_nil, or_false] at h
    simp only [flushFields, List.mem_cons, List.not_mem_nil, or_false,
      List.flatMap_cons, List.flatMap_nil, List.append_nil]
    tauto
  · have hcast : accesses ("((" ++ program.symbolPrefix ++ "__span_cb) s->"
        ++ callbackField slot ++ ")") = [callbackField slot] := by
      have hname : IsWord (program.symbolPrefix ++ "__span_cb") :=
        hsymbol.append (by decide)
      have hline : "((" ++ program.symbolPrefix ++ "__span_cb) s->"
          ++ callbackField slot ++ ")"
          = "((" ++ (program.symbolPrefix ++ "__span_cb")
            ++ ") s->" ++ callbackField slot ++ ")" := by
        simp only [String.append_assoc]
        rfl
      rw [hline]
      generalize program.symbolPrefix ++ "__span_cb" = name at hname
      simp [accesses, accessesFrom, isSeparator, isWordChar, hname, hcallback]
    simp only [flushLines] at h
    rw [hlines, hcast] at h
    simp only [List.mem_append, List.mem_cons,
      List.not_mem_nil, or_false] at h
    simp only [flushFields, List.mem_cons, List.not_mem_nil, or_false]
    tauto

omit hsymbol in
/-- A heading over lines about slots accesses nothing. -/
theorem mem_accesses_slotLines {heading : String} {lines : List String}
    (hheading : accesses heading = [])
    (h : field ∈ (program.slotLines heading lines).flatMap accesses) :
    field ∈ lines.flatMap accesses := by
  have hnone : accesses "" = [] := rfl
  unfold slotLines at h
  split at h
  · cases h
  · simpa [hheading, hnone] using h

/-- What hands the bytes of open slots on accesses the fields of the slots,
and what the names of their callbacks say. -/
theorem mem_accesses_flushes
    (h : field ∈ (program.slots.zipIdx.flatMap fun (callbacks, slot) =>
      program.flushLines slot callbacks).flatMap accesses) :
    (field ∈ program.slots.zipIdx.flatMap fun (callbacks, slot) =>
        flushFields slot callbacks)
      ∨ field ∈ program.slots.flatten.flatMap accesses := by
  rw [List.flatMap_assoc] at h
  obtain ⟨⟨callbacks, slot⟩, hmem, hfield⟩ := List.mem_flatMap.mp h
  refine (mem_accesses_flushLines hsymbol hfield).imp
    (fun h => List.mem_flatMap.mpr ⟨_, hmem, h⟩) fun h => ?_
  obtain ⟨callback, hcallback, hfield⟩ := List.mem_flatMap.mp h
  exact List.mem_flatMap.mpr ⟨callback, List.mem_flatten.mpr
    ⟨callbacks, List.fst_mem_of_mem_zipIdx hmem, hcallback⟩, hfield⟩

/-- The function a host calls accesses what it is listed with. -/
theorem mem_accesses_executeLines (htype : IsWord program.type)
    (h : field ∈ program.executeLines.flatMap accesses) :
    field ∈ program.outerFields
      ∨ field ∈ program.slots.flatten.flatMap accesses := by
  have hhead : accesses ("int " ++ program.symbolPrefix ++ "_execute("
      ++ program.type ++ "* s, const char* p, const char* endp) \x7b") = [] :=
    accesses_of_quiet (by simp [hsymbol.arrow_notMem, htype.arrow_notMem])
  have hrun : accesses ("  next = " ++ program.symbolPrefix
      ++ "__run(s, (const unsigned char*) p, (const unsigned char*) endp);")
      = [] :=
    accesses_of_quiet (by simp [hsymbol.arrow_notMem])
  have hfixed : refuseLines.flatMap accesses = [errorField, errorField]
      ∧ leaveLines.flatMap accesses = [errorField, currentField]
      ∧ ["  return 0;", "\x7d"].flatMap accesses = [] := by decide
  have hrestart : field ∈ ((List.range program.slots.length).flatMap
        restartLines).flatMap accesses →
      field ∈ (List.range program.slots.length).map positionField := by
    intro h
    rw [List.flatMap_assoc] at h
    obtain ⟨slot, hslot, hfield⟩ := List.mem_flatMap.mp h
    exact List.mem_map.mpr
      ⟨slot, hslot, (mem_accesses_restartLines.mp hfield).symm⟩
  have hline : ∀ line : String, [line].flatMap accesses = accesses line :=
    fun line => List.flatMap_singleton _ _
  have hwords : field = currentField ∨ field = errorField →
      field ∈ program.outerFields :=
    fun h => List.mem_append_left _ (List.mem_append_left _ (by simpa using h))
  simp only [executeLines, List.flatMap_append, hline, hhead, hrun, hfixed,
    List.mem_append, List.mem_cons, List.not_mem_nil, or_false, false_or] at h
  rcases h with ((h | h) | h) | h
  · exact .inl (hwords (.inr (or_self_iff.mp h)))
  · refine .inl (List.mem_append_left _ (List.mem_append_right _
      (hrestart (mem_accesses_slotLines (by decide) h))))
  · exact .inl (hwords h.symm)
  · exact (mem_accesses_flushes hsymbol
      (mem_accesses_slotLines (by decide) h)).imp_left
      (List.mem_append_right _)

end execute

-- ============================================================== source

/-- The texts that the lines of a program take over as they are. -/
def texts (program : Program) : List String :=
  [program.headerName] ++ program.debugHook.toList
    ++ program.states.flatMap (·.body.flatMap Stmt.texts)
    ++ program.functions.map (·.name) ++ program.slots.flatten

/-- What a program is spelled with: its own names and those of its fields
are words, and the types, limits and comments of its intrinsics are plain. -/
structure Spelled (program : Program) : Prop where
  symbolPrefix : IsWord program.symbolPrefix
  labels : ∀ s, IsWord (program.stateLabel s)
  fields : ∀ field ∈ program.fields, IsWord field
  steps : ∀ function ∈ program.functions, ∀ step ∈ function.body.getD [],
    ∀ text ∈ step.texts, IsPlain text ∧ accesses text = []

/-- The type of the state is a word. -/
theorem Spelled.type (h : program.Spelled) : IsWord program.type :=
  h.symbolPrefix.append (by decide)

/-- A program uses what its statements use. -/
theorem mem_fields_of_stmt {state : State} {stmt : Stmt}
    (hstate : state ∈ program.states) (hstmt : stmt ∈ state.body)
    (hfield : field ∈ stmt.fields) : field ∈ program.fields :=
  List.mem_append_left _ (List.mem_append_left _ (List.mem_append_right _
    (List.mem_flatMap.mpr ⟨state, hstate,
      List.mem_flatMap.mpr ⟨stmt, hstmt, hfield⟩⟩)))

/-- A program uses what its functions use. -/
theorem mem_fields_of_function {function : Function}
    (hmem : function ∈ program.functions) (hfield : field ∈ function.fields) :
    field ∈ program.fields :=
  List.mem_append_left _ (List.mem_append_right _
    (List.mem_flatMap.mpr ⟨function, hmem, hfield⟩))

/-- A moved body accesses what its statements are listed with. -/
theorem Spelled.mem_of_body (h : program.Spelled) {state : State}
    (hstate : state ∈ program.states) {indent line : String}
    (hindent : IsBlank indent)
    (hline : line ∈ indentText indent (program.bodyText state))
    (hfield : field ∈ accessedIn line) :
    field ∈ program.fields ∨ field ∈ program.texts.flatMap accesses := by
  obtain ⟨stmt, hstmt, hline⟩ := mem_indentText_flatMap.mp hline
  refine (mem_accessedIn_indentText h.labels hindent (fun field hfield =>
    h.fields field (mem_fields_of_stmt hstate hstmt hfield)) hline
      hfield).imp (mem_fields_of_stmt hstate hstmt) fun hfield => ?_
  obtain ⟨text, htext, hfield⟩ := List.mem_flatMap.mp hfield
  refine List.mem_flatMap.mpr ⟨text, ?_, hfield⟩
  exact List.mem_append_left _ (List.mem_append_left _
    (List.mem_append_right _ (List.mem_flatMap.mpr ⟨state, hstate,
      List.mem_flatMap.mpr ⟨stmt, hstmt, htext⟩⟩)))

/-- A program uses the field that says where to go on. -/
theorem currentField_mem_fields : currentField ∈ program.fields :=
  List.mem_append_right _ (List.mem_append_left _
    (List.mem_append_left _ List.mem_cons_self))

/-- The lines of a block around its body access nothing. -/
theorem Spelled.mem_of_blockLines (h : program.Spelled) {state : State}
    (hstate : state ∈ program.states) {line : String}
    (hline : line ∈ program.blockLines state)
    (hfield : field ∈ accessedIn line) :
    field ∈ program.fields ∨ field ∈ program.texts.flatMap accesses := by
  have hlabel := (h.labels state.id).arrow_notMem
  have hquiet : ∀ {lines : List String}, line ∈ lines →
      (∀ line ∈ lines, '>' ∉ line.toList) →
      field ∈ program.fields ∨ field ∈ program.texts.flatMap accesses := by
    intro lines hmem hall
    have hraw := accessedIn_subset line hfield
    rw [accesses_of_quiet (hall line hmem)] at hraw
    cases hraw
  unfold blockLines at hline
  dsimp only at hline
  split at hline
  · simp only [List.mem_append] at hline
    rcases hline with (hopen | hbody) | hclose
    · exact hquiet hopen (by simp [hlabel])
    · exact h.mem_of_body hstate (by simp [IsBlank]) hbody hfield
    · exact hquiet hclose (by decide)
  · simp only [List.mem_append] at hline
    rcases hline with (hopen | hbody) | hclose
    · exact hquiet hopen (by simp [hlabel])
    · exact h.mem_of_body hstate (by simp [IsBlank]) hbody hfield
    · exact hquiet hclose (by decide)

/-- The run function accesses what the bodies of states do, besides the
field that says where to go on. -/
theorem Spelled.mem_of_runLines (h : program.Spelled) {line : String}
    (hline : line ∈ program.runLines) (hfield : field ∈ accessedIn line) :
    field ∈ program.fields ∨ field ∈ program.texts.flatMap accesses := by
  have hraw := accessedIn_subset line hfield
  have hblocks : ∀ states ⊆ program.states,
      line ∈ states.flatMap program.blockLines →
      field ∈ program.fields ∨ field ∈ program.texts.flatMap accesses := by
    intro states hstates hmem
    obtain ⟨state, hstate, hmem⟩ := List.mem_flatMap.mp hmem
    exact h.mem_of_blockLines (hstates hstate) hmem hfield
  simp only [runLines, List.mem_append] at hline
  rcases hline with (((hhead | hcases) | hstopped) | hothers) | hend
  · have hhead := List.mem_flatMap.mpr ⟨line, hhead, hraw⟩
    have hsymbol := h.symbolPrefix.arrow_notMem
    have hopen : accesses ("static llparse_state_t " ++ program.symbolPrefix
        ++ "__run(") = [] := accesses_of_quiet (by simp [hsymbol])
    have htype : accesses ("    " ++ program.type ++ "* s,") = [] :=
      accesses_of_quiet (by simp [h.type.arrow_notMem])
    have hfixed : ["    const unsigned char* p,",
        "    const unsigned char* endp) \x7b", "  int match;",
        "  switch ((llparse_state_t) (intptr_t) s->" ++ currentField
          ++ ") \x7b"].flatMap accesses = [currentField] := by decide
    rw [dispatchLines, List.flatMap_cons, List.flatMap_cons, hopen, htype,
      hfixed] at hhead
    rw [List.mem_singleton.mp hhead]
    exact .inl currentField_mem_fields
  · exact hblocks _ (List.filter_sublist.subset) hcases
  · have hnone : stoppedLines.flatMap accesses = [] := by decide
    have hmem := List.mem_flatMap.mpr ⟨line, hstopped, hraw⟩
    rw [hnone] at hmem
    cases hmem
  · exact hblocks _ (List.filter_sublist.subset) hothers
  · have hnone : ["\x7d", ""].flatMap accesses = [] := by decide
    have hmem := List.mem_flatMap.mpr ⟨line, hend, hraw⟩
    rw [hnone] at hmem
    cases hmem

/-- The functions access what they are listed with. -/
theorem Spelled.mem_of_functionsLines (h : program.Spelled)
    (hfield : field ∈ program.functionsLines.flatMap accesses) :
    field ∈ program.fields ∨ field ∈ program.texts.flatMap accesses := by
  have hnone : [""].flatMap accesses = [] := by decide
  rw [functionsLines, List.flatMap_assoc] at hfield
  obtain ⟨function, hmem, hfield⟩ := List.mem_flatMap.mp hfield
  rw [List.flatMap_append, hnone, List.append_nil,
    mem_accesses_functionLines h.type fun field hfield =>
      h.fields field (mem_fields_of_function hmem hfield)] at hfield
  refine hfield.imp (mem_fields_of_function hmem) fun hfield => ?_
  obtain ⟨text, htext, hfield⟩ := List.mem_flatMap.mp hfield
  rcases List.mem_cons.mp htext with rfl | htext
  · exact List.mem_flatMap.mpr ⟨_, List.mem_append_left _
      (List.mem_append_right _ (List.mem_map_of_mem hmem)), hfield⟩
  · obtain ⟨step, hstep, htext⟩ := List.mem_flatMap.mp htext
    rw [(h.steps function hmem step hstep text htext).2] at hfield
    cases hfield

/-- What the source of a program accesses, the program is listed with, if it
does not stand in a text that the source takes over. -/
theorem Spelled.listed (h : program.Spelled)
    (hfield : field ∈ accessedIn program.render) :
    field ∈ program.fields ∨ field ∈ program.texts.flatMap accesses := by
  rw [render, accessedIn_joinLines] at hfield
  obtain ⟨line, hline, hfield⟩ := List.mem_flatMap.mp hfield
  have hraw : ∀ {lines : List String}, line ∈ lines →
      field ∈ lines.flatMap accesses := fun hmem =>
    List.mem_flatMap.mpr ⟨line, hmem, accessedIn_subset line hfield⟩
  simp only [lines, List.mem_append] at hline
  rcases hline with (((((((hline | hline) | hline) | hline) | hline) | hline)
    | hline) | hline) | hline
  · have hheader := hraw hline
    rw [accesses_preamble h.symbolPrefix] at hheader
    simp [texts, hheader]
  · have hhook := hraw hline
    rw [accesses_debugHookLines h.type] at hhook
    simp only [texts, List.mem_append, List.flatMap_append]
    tauto
  · have hnone := hraw hline
    rw [accesses_blobsLines] at hnone
    cases hnone
  · have hmatchers := (mem_accesses_matchersLines h.type).mp (hraw hline)
    simp only [Program.fields, List.mem_append]
    tauto
  · have hnone := hraw hline
    rw [accesses_stateEnumLines h.labels] at hnone
    cases hnone
  · exact h.mem_of_functionsLines (hraw hline)
  · have hinit := hraw hline
    rw [accesses_initLines h.type h.symbolPrefix h.labels] at hinit
    rw [List.mem_singleton.mp hinit]
    exact .inl currentField_mem_fields
  · exact h.mem_of_runLines hline hfield
  · refine (mem_accesses_executeLines h.symbolPrefix h.type
      (hraw hline)).imp (List.mem_append_right _) fun h => ?_
    simp only [texts, List.mem_append, List.flatMap_append]
    tauto

/-- What a body is listed with, its block accesses. -/
theorem Spelled.exists_shows_blockLines (h : program.Spelled) {state : State}
    (hstate : state ∈ program.states) {stmt : Stmt} (hstmt : stmt ∈ state.body)
    (hfield : field ∈ stmt.fields) :
    ∃ line ∈ program.blockLines state, Shows line field := by
  obtain ⟨line, hline, hshows⟩ := exists_shows_stmtLines program hfield
  have hmem : line ∈ state.body.flatMap program.stmtLines :=
    List.mem_flatMap.mpr ⟨stmt, hstmt, hline⟩
  have hmoved := fun indent (hindent : IsBlank indent) =>
    exists_shows_indentText hmem hshows
      (h.fields field (mem_fields_of_stmt hstate hstmt hfield)) hindent
  unfold blockLines bodyText
  dsimp only
  split
  · obtain ⟨moved, hmem, hshows⟩ := hmoved "      " (by simp [IsBlank])
    exact ⟨moved, by simp [hmem], hshows⟩
  · obtain ⟨moved, hmem, hshows⟩ := hmoved "    " (by simp [IsBlank])
    exact ⟨moved, by simp [hmem], hshows⟩

/-- The blocks of all states are lines of the run function. -/
theorem blockLines_subset {state : State} (hstate : state ∈ program.states) :
    program.blockLines state ⊆ program.runLines := by
  intro line hline
  simp only [runLines, List.mem_append, List.mem_flatMap]
  cases hresumable : state.resumable with
  | true =>
      exact .inl (.inl (.inl (.inr ⟨state, List.mem_filter.mpr
        ⟨hstate, hresumable⟩, hline⟩)))
  | false =>
      exact .inl (.inr ⟨state, List.mem_filter.mpr
        ⟨hstate, by simp [hresumable]⟩, hline⟩)

/-- What a program is listed with, its source shows. -/
theorem Spelled.exists_shows (h : program.Spelled)
    (hfield : field ∈ program.fields) :
    ∃ line ∈ program.lines, Shows line field := by
  simp only [Program.fields, List.mem_append] at hfield
  rcases hfield with ((hmatcher | hstate) | hfunction) | houter
  · obtain ⟨transform, hmem, rfl⟩ := List.mem_map.mp hmatcher
    have hsome : program.matchers.isEmpty = false :=
      List.isEmpty_eq_false_iff.mpr (List.ne_nil_of_mem hmem)
    have hline : "  index = s->" ++ indexField ++ ";"
        ∈ program.matchersLines := by
      unfold matchersLines
      rw [hsome, if_neg Bool.false_ne_true]
      exact List.mem_append_right _ (List.mem_flatMap.mpr
        ⟨transform, hmem, by simp [matcherLines]⟩)
    exact ⟨"  index = s->" ++ indexField ++ ";", by simp [lines, hline],
      "  index = ", ";", by decide, by decide, by decide, by decide⟩
  · obtain ⟨state, hmem, hstate⟩ := List.mem_flatMap.mp hstate
    obtain ⟨stmt, hstmt, hfield⟩ := List.mem_flatMap.mp hstate
    obtain ⟨line, hline, hshows⟩ := h.exists_shows_blockLines hmem hstmt hfield
    exact ⟨line, by simp [lines, blockLines_subset hmem hline], hshows⟩
  · obtain ⟨function, hmem, hfield⟩ := List.mem_flatMap.mp hfunction
    obtain ⟨line, hline, hshows⟩ := exists_shows_functionLines
      program (fun field hfield =>
        h.fields field (mem_fields_of_function hmem hfield))
      (fun step hstep text htext => (h.steps function hmem step hstep text
        htext).1) hfield
    have hmem : line ∈ program.functionsLines :=
      List.mem_flatMap.mpr ⟨function, hmem, List.mem_append_left _ hline⟩
    exact ⟨line, by simp [lines, hmem], hshows⟩
  · obtain ⟨line, hline, hshows⟩ :=
      exists_shows_executeLines h.symbolPrefix houter
    exact ⟨line, by simp [lines, hline], hshows⟩

/-- What a program is listed with, its source accesses. -/
theorem Spelled.accessed (h : program.Spelled)
    (hfield : field ∈ program.fields) : field ∈ accessedIn program.render := by
  obtain ⟨line, hline, hshows⟩ := h.exists_shows hfield
  rw [render, accessedIn_joinLines]
  exact List.mem_flatMap.mpr
    ⟨line, hline, hshows.mem_accessedIn (h.fields field hfield)⟩

end Program

end Bytewise

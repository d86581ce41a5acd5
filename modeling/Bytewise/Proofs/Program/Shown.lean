/-
What the lines of a source show.

A line shows a field if it accesses it behind what is plain. What comes
behind may be any text, with line feeds and quotes of its own: the piece up
to the first of them still has the access in it (`Shows.exists_piece`), and
keeps it where the line is moved right. So the names of callbacks, which may
be anything, hide no access of the program's own.
-/
import Bytewise.Proofs.Program.Accesses

namespace Bytewise

namespace Program

open Text

variable {program : Program} {field : String}

-- ======================================================= shown fields

section shown

variable {line : String}

/-- An access does not end in a carriage return, so it stays whole. -/
theorem shows_dropReturn (h : Shows line field) (hfield : IsWord field) :
    Shows (dropReturn line) field := by
  obtain ⟨before, behind, rfl, hplain, hbefore, hbehind⟩ := h
  have hkept : dropReturn (before ++ "s->" ++ field)
      = before ++ "s->" ++ field := by
    unfold dropReturn
    split
    · rename_i rest hlast
      rw [String.toList_append, List.reverse_append] at hlast
      cases hchars : field.toList.reverse with
      | nil => simp [hchars] at hlast
      | cons c chars =>
          rw [hchars] at hlast
          have hmem : c ∈ field.toList := by
            rw [← List.mem_reverse, hchars]
            exact List.mem_cons_self
          have hword := hfield c hmem
          rw [(List.cons.inj hlast).1] at hword
          exact absurd hword (by decide)
    · rfl
  rw [dropReturn_append _ hkept]
  refine ⟨before, _, rfl, hplain, hbefore, ?_⟩
  unfold dropReturn
  split
  · rename_i rest hlast
    have hchars : behind.toList = rest.reverse ++ ['\r'] := by
      rw [← List.reverse_reverse behind.toList, hlast, List.reverse_cons]
    rw [hchars] at hbehind
    rw [String.toList_ofList]
    exact hbehind.of_prefix
  · exact hbehind

/-- Blanks end apart from what follows. -/
theorem endsApart_of_isBlank {indent : String} (h : IsBlank indent) :
    EndsApart indent.toList := by
  rcases List.eq_nil_or_concat indent.toList with hnil | ⟨rest, c, hlast⟩
  · rw [hnil]
    rfl
  · have hc := h c (by simp [hlast])
    simp [hlast, hc, EndsApart, isWordChar]

/-- A line that is moved right shows what it did. -/
theorem shows_indentLine (h : Shows line field) {indent : String}
    (hindent : IsBlank indent) : Shows (indentLine indent line) field := by
  unfold indentLine
  split
  · rename_i hnil
    obtain ⟨before, behind, rfl, -⟩ := h
    simp at hnil
  · exact h
  · have hmoved := h.between indent "" (isPlain_of_isBlank hindent)
      (endsApart_of_isBlank hindent) rfl
    rwa [String.append_empty] at hmoved

/-- Of the lines that a line is moved as, one shows what the line does. -/
theorem exists_shows_indentText {lines : List String} (hline : line ∈ lines)
    (h : Shows line field) (hfield : IsWord field) {indent : String}
    (hindent : IsBlank indent) :
    ∃ moved ∈ indentText indent (joinLines lines), Shows moved field := by
  obtain ⟨piece, hpiece, -, hshows⟩ := h.exists_piece hfield
  refine ⟨_, ?_, shows_indentLine (shows_dropReturn hshows hfield) hindent⟩
  have hsame : lines = lines.flatMap fun line => [line] := by simp
  rw [hsame, mem_indentText_flatMap]
  refine ⟨line, hline, List.mem_map.mpr ⟨piece, ?_, rfl⟩⟩
  show piece ∈ linesOf (joinLines [line])
  rw [linesOf_joinLines_cons]
  exact List.mem_append_left _ hpiece

end shown

/-- The store of a place to go on at shows its field. -/
theorem shows_currentLine (program : Program) {indent : String}
    (hindent : IsBlank indent) (label : Label) :
    Shows (program.currentLine indent label) currentField := by
  have hends : EndsApart indent.toList := endsApart_of_isBlank hindent
  exact ⟨indent, " = (void*) (intptr_t) " ++ program.labelText label ++ ";",
    by simp only [currentLine, String.append_assoc],
    isPlain_of_isBlank hindent, hends, by simp [StartsApart, isWordChar]⟩

/-- What a statement is listed with, a line of it shows. -/
theorem exists_shows_stmtLines (program : Program) {stmt : Stmt}
    (h : field ∈ stmt.fields) :
    ∃ line ∈ program.stmtLines stmt, Shows line field := by
  have hplain : IsPlain "" ∧ EndsApart "".toList := by decide
  cases stmt with
  | setCurrent label =>
      rw [List.mem_singleton.mp h]
      exact ⟨_, List.mem_cons_self, shows_currentLine program
        (by simp [IsBlank]) label⟩
  | setError code reason =>
      simp only [Stmt.fields, List.mem_cons, List.not_mem_nil, or_false] at h
      rcases h with rfl | rfl | rfl
      · refine ⟨_, List.mem_cons_self, "", " = " ++ hexLiteral code ++ ";",
          ?_, hplain.1, hplain.2, by simp [StartsApart, isWordChar]⟩
        simp [String.append_assoc]
      · refine ⟨_, .tail _ (.head _), "", " = " ++ stringLiteral reason ++ ";",
          ?_, hplain.1, hplain.2, by simp [StartsApart, isWordChar]⟩
        simp [String.append_assoc]
      · exact ⟨_, .tail _ (.tail _ (.head _)), "", " = (const char*) p;",
          by decide, hplain.1, hplain.2, by decide⟩
  | onSpanError advance resume =>
      simp only [Stmt.fields, List.mem_cons, List.not_mem_nil, or_false] at h
      rcases h with rfl | rfl | rfl
      · exact ⟨_, .tail _ (.head _), "  ", " = err;",
          by decide, by decide, by decide, by decide⟩
      · refine ⟨_, .tail _ (.tail _ (.head _)), "  ", " = (const char*) "
            ++ (if advance then "(p + 1)" else "p") ++ ";",
          ?_, by decide, by decide, by simp [StartsApart, isWordChar]⟩
        cases advance <;> decide
      · exact ⟨_, .tail _ (.tail _ (.tail _ (.head _))),
          shows_currentLine program (by simp [IsBlank]) _⟩
  | setCallback slot callback =>
      rw [List.mem_singleton.mp h]
      refine ⟨_, List.mem_cons_self, "", " = " ++ callback ++ ";", ?_,
        hplain.1, hplain.2, by simp [StartsApart, isWordChar]⟩
      simp [String.append_assoc]
  | openSlot slot =>
      rw [List.mem_singleton.mp h]
      exact ⟨_, List.mem_cons_self, "", " = (void*) p;",
        by simp [String.append_assoc], hplain.1, hplain.2, by decide⟩
  | closeSlot slot =>
      rw [List.mem_singleton.mp h]
      exact ⟨_, List.mem_cons_self, "start = ", ";",
        by simp [String.append_assoc], by decide, by decide, by decide⟩
  | measure name =>
      rw [List.mem_singleton.mp h]
      exact ⟨_, .tail _ (.head _), "need = ", ";",
        by simp [String.append_assoc], by decide, by decide, by decide⟩
  | skipAll name next =>
      rw [List.mem_singleton.mp h]
      exact ⟨"  s->" ++ name ++ " = 0;", by simp [stmtLines], "  ", " = 0;",
        by simp [String.append_assoc], by decide, by decide, by decide⟩
  | skipRest name =>
      rw [List.mem_singleton.mp h]
      exact ⟨_, List.mem_cons_self, "", " -= avail;",
        by simp [String.append_assoc], hplain.1, hplain.2, by decide⟩
  | _ => cases h

-- ======================================================= functions

/-- A number is written without line feeds and literals. -/
theorem isPlain_int (value : Int) : IsPlain (toString value) := by
  cases value with
  | ofNat n => exact (isWord_toString n).plain
  | negSucc n =>
      exact IsPlain.append (by decide : IsPlain "-")
        (isWord_toString (n + 1)).plain

/-- An operand of plain texts is plain. -/
theorem isPlain_operandText {operand : Operand}
    (hwords : ∀ field ∈ operand.fields, IsWord field)
    (hplain : ∀ text ∈ operand.texts, IsPlain text) :
    IsPlain (operandText operand) := by
  induction operand with
  | field name =>
      exact IsPlain.append (by decide) (hwords name List.mem_cons_self).plain
  | aliased | matched => exact (by decide)
  | number value => exact isPlain_int value.toInt
  | limit literal => exact hplain _ List.mem_cons_self
  | quotient a b iha ihb | difference a b iha ihb | equal a b iha ihb =>
      obtain ⟨hwa, hwb⟩ := List.forall_mem_append.mp hwords
      obtain ⟨hpa, hpb⟩ := List.forall_mem_append.mp hplain
      exact ((iha hwa hpa).append (by decide)).append (ihb hwb hpb)
  | masked a b iha ihb =>
      obtain ⟨hwa, hwb⟩ := List.forall_mem_append.mp hwords
      obtain ⟨hpa, hpb⟩ := List.forall_mem_append.mp hplain
      have hopen := IsPlain.append (by decide : IsPlain "(") (iha hwa hpa)
      exact ((hopen.append (by decide)).append (ihb hwb hpb)).append
        (by decide)

/-- What an operand of plain texts is listed with, it shows. -/
theorem shows_operandText {operand : Operand}
    (hwords : ∀ field ∈ operand.fields, IsWord field)
    (hplain : ∀ text ∈ operand.texts, IsPlain text)
    (h : field ∈ operand.fields) : Shows (operandText operand) field := by
  have hinfix : ∀ {a b : Operand} (operator : String),
      IsPlain operator → EndsApart operator.toList → operator ≠ "" →
      StartsApart operator.toList →
      (∀ field ∈ a.fields, IsWord field) → (∀ text ∈ a.texts, IsPlain text) →
      (field ∈ a.fields → Shows (operandText a) field) →
      (field ∈ b.fields → Shows (operandText b) field) →
      field ∈ a.fields ++ b.fields →
      Shows (operandText a ++ operator ++ operandText b) field := by
    intro a b operator hoperator hends hsome hstarts hwa hpa ha hb h
    have hsome : operator.toList ≠ [] := by simpa using hsome
    rcases List.mem_append.mp h with h | h
    · have hleft := (ha h).between ""
        (operator ++ operandText b) (by decide) (by decide) (by
          rw [String.toList_append]
          exact hstarts.append hsome _)
      simpa only [String.empty_append, String.append_assoc] using hleft
    · have hright := (hb h).between (operandText a ++ operator) ""
        ((isPlain_operandText hwa hpa).append hoperator) (by
          rw [String.toList_append]
          exact hends.append hsome _) (by decide)
      rwa [String.append_empty] at hright
  induction operand with
  | field name =>
      rw [List.mem_singleton.mp h]
      exact ⟨"", "", by simp [operandText], by decide, by decide, by decide⟩
  | aliased | matched | number | limit => cases h
  | quotient a b iha ihb | difference a b iha ihb | equal a b iha ihb =>
      obtain ⟨hwa, hwb⟩ := List.forall_mem_append.mp hwords
      obtain ⟨hpa, hpb⟩ := List.forall_mem_append.mp hplain
      exact hinfix _ (by decide) (by decide) (by decide) (by decide) hwa hpa
        (iha hwa hpa) (ihb hwb hpb) h
  | masked a b iha ihb =>
      obtain ⟨hwa, hwb⟩ := List.forall_mem_append.mp hwords
      obtain ⟨hpa, hpb⟩ := List.forall_mem_append.mp hplain
      have hinner := hinfix " & " (by decide) (by decide)
        (by decide) (by decide)
        hwa hpa (iha hwa hpa) (ihb hwb hpb) h
      have hclosed := hinner.between "(" ")" (by decide)
        (by decide) (by decide)
      simpa only [operandText, String.append_assoc] using hclosed

/-- What a refusal is listed with, its condition shows. -/
theorem exists_shows_refusalLines {indent : String} (hindent : IsBlank indent)
    {refusal : Refusal} (hwords : ∀ field ∈ refusal.fields, IsWord field)
    (hplain : ∀ text ∈ refusal.texts, IsPlain text)
    (h : field ∈ refusal.fields) :
    ∃ line ∈ refusalLines indent refusal, Shows line field := by
  obtain ⟨hwleft, hwright⟩ := List.forall_mem_append.mp hwords
  obtain ⟨hpleft, hpright⟩ := List.forall_mem_append.mp hplain
  have hopen : IsPlain (indent ++ "if (")
      ∧ EndsApart (indent ++ "if (").toList := by
    refine ⟨(isPlain_of_isBlank hindent).append (by decide), ?_⟩
    rw [String.toList_append]
    exact EndsApart.append (by decide) (by decide) _
  have hcomparison : ∀ comparison ∈ [" > ", " < "], IsPlain comparison
      ∧ EndsApart comparison.toList ∧ StartsApart comparison.toList
      ∧ comparison.toList ≠ [] := by decide
  obtain ⟨hbetween, hends, hstarts, hsome⟩ := hcomparison
    (if refusal.ifGreater then " > " else " < ") (by split <;> decide)
  refine ⟨_, List.mem_cons_self, ?_⟩
  rcases List.mem_append.mp h with h | h
  · have hleft := (shows_operandText hwleft hpleft h).between
      (indent ++ "if (") ((if refusal.ifGreater then " > " else " < ")
        ++ (operandText refusal.right ++ ") \x7b")) hopen.1 hopen.2 (by
        rw [String.toList_append]
        exact hstarts.append hsome _)
    simpa only [String.append_assoc] using hleft
  · have hbefore := (hopen.1.append (isPlain_operandText hwleft hpleft)).append
      hbetween
    have hright := (shows_operandText hwright hpright h).between _
      ") \x7b" hbefore (by
        rw [String.toList_append]
        exact hends.append hsome _) (by decide)
    simpa only [String.append_assoc] using hright

/-- What a step is listed with, a line of it shows. -/
theorem exists_shows_stepLines {step : Step}
    (hwords : ∀ field ∈ step.fields, IsWord field)
    (hplain : ∀ text ∈ step.texts, IsPlain text) (h : field ∈ step.fields) :
    ∃ line ∈ stepLines step, Shows line field := by
  cases step with
  | blank | comment text => cases h
  | «alias» type name =>
      have htype : IsPlain type := hplain _ List.mem_cons_self
      rw [List.mem_singleton.mp h]
      refine ⟨_, List.mem_cons_self, "  " ++ type ++ "* field = (" ++ type
        ++ "*) &", ";", ?_, ?_, ?_, by decide⟩
      · simp [String.append_assoc]
      · exact ((((by decide : IsPlain "  ").append htype).append
          (by decide)).append htype).append (by decide)
      · rw [String.toList_append]
        exact EndsApart.append (by decide) (by decide) _
  | assign target assignment value =>
      obtain ⟨hwtarget, hwvalue⟩ := List.forall_mem_append.mp hwords
      obtain ⟨hptarget, hpvalue⟩ := List.forall_mem_append.mp hplain
      have hoperator : IsPlain assignment.operator := by
        cases assignment <;> decide
      refine ⟨_, List.mem_cons_self, ?_⟩
      rcases List.mem_append.mp h with h | h
      · have hleft := (shows_operandText hwtarget hptarget h).between
          "  " (" " ++ (assignment.operator
            ++ (" " ++ (operandText value ++ ";"))))
          (by decide) (by decide) (by
            rw [String.toList_append]
            exact StartsApart.append (by decide) (by decide) _)
        simpa only [String.append_assoc] using hleft
      · have hbefore := ((((by decide : IsPlain "  ").append
          (isPlain_operandText hwtarget hptarget)).append
          (by decide : IsPlain " ")).append hoperator).append
          (by decide : IsPlain " ")
        have hright := (shows_operandText hwvalue hpvalue h).between _
          ";" hbefore (by
            rw [String.toList_append]
            exact EndsApart.append (by decide) (by decide) _) (by decide)
        simpa only [String.append_assoc] using hright
  | refuseIf refusal =>
      exact exists_shows_refusalLines (by simp [IsBlank]) hwords hplain h
  | refuseBySign nonnegative negative =>
      obtain ⟨hwleft, hwright⟩ := List.forall_mem_append.mp hwords
      obtain ⟨hpleft, hpright⟩ := List.forall_mem_append.mp hplain
      rcases List.mem_append.mp h with h | h
      · obtain ⟨line, hline, hshows⟩ := exists_shows_refusalLines
          (by simp [IsBlank] : IsBlank "    ") hwleft hpleft h
        exact ⟨line, by simp [stepLines, hline], hshows⟩
      · obtain ⟨line, hline, hshows⟩ := exists_shows_refusalLines
          (by simp [IsBlank] : IsBlank "    ") hwright hpright h
        exact ⟨line, by simp [stepLines, hline], hshows⟩
  | answer value =>
      have hline := (shows_operandText hwords hplain h).between
        "  return " ";" (by decide) (by decide) (by decide)
      exact ⟨_, List.mem_cons_self, hline⟩

/-- What a function is listed with, a line of its body shows. -/
theorem exists_shows_functionLines (program : Program) {function : Function}
    (hwords : ∀ field ∈ function.fields, IsWord field)
    (hplain : ∀ step ∈ function.body.getD [], ∀ text ∈ step.texts,
      IsPlain text)
    (h : field ∈ function.fields) :
    ∃ line ∈ program.functionLines function, Shows line field := by
  obtain ⟨step, hstep, hfield⟩ := List.mem_flatMap.mp h
  obtain ⟨line, hline, hshows⟩ := exists_shows_stepLines (fun field hfield =>
    hwords field (List.mem_flatMap.mpr ⟨step, hstep, hfield⟩))
    (hplain step hstep) hfield
  refine ⟨line, ?_, hshows⟩
  unfold functionLines
  cases hbody : function.body with
  | none =>
      rw [hbody] at hstep
      cases hstep
  | some steps =>
      rw [hbody] at hstep
      exact List.mem_append_left _ (List.mem_append_right _
        (List.mem_flatMap.mpr ⟨step, hstep, hline⟩))

-- ======================================================= execute

/-- What it takes to flush a slot, its lines show. -/
theorem exists_shows_flushLines (hsymbol : IsWord program.symbolPrefix)
    {slot : SlotId} {callbacks : List String}
    (h : field ∈ flushFields slot callbacks) :
    ∃ line ∈ program.flushLines slot callbacks, Shows line field := by
  have hposition : Shows
      ("  if (s->" ++ positionField slot ++ " != NULL) \x7b")
      (positionField slot) :=
    ⟨"  if (", " != NULL) \x7b", by simp [String.append_assoc], by decide,
      by decide, by decide⟩
  have herror : Shows ("      s->" ++ errorField ++ " = error;") errorField :=
    ⟨"      ", " = error;", by decide, by decide, by decide, by decide⟩
  have herrorPos : Shows ("      s->" ++ errorPosField ++ " = endp;")
      errorPosField :=
    ⟨"      ", " = endp;", by decide, by decide, by decide, by decide⟩
  rcases callbacks with _ | ⟨callback, _ | ⟨other, rest⟩⟩
  · cases h
  · simp only [flushFields, List.mem_cons, List.not_mem_nil, or_false] at h
    rcases h with rfl | rfl | rfl
    · exact ⟨_, by simp [flushLines], hposition⟩
    · exact ⟨_, by simp [flushLines], herror⟩
    · exact ⟨_, by simp [flushLines], herrorPos⟩
  · simp only [flushFields, List.mem_cons, List.not_mem_nil, or_false] at h
    rcases h with rfl | rfl | rfl | rfl
    · exact ⟨_, by simp [flushLines], hposition⟩
    · refine ⟨"    error = " ++ ("((" ++ program.symbolPrefix
        ++ "__span_cb) s->" ++ callbackField slot ++ ")") ++ "(s, s->"
        ++ positionField slot ++ ", (const unsigned char*) endp);",
        by simp [flushLines], "    error = ((" ++ program.symbolPrefix
          ++ "__span_cb) ", ")(s, s->" ++ positionField slot
          ++ ", (const unsigned char*) endp);", ?_, ?_, ?_, ?_⟩
      · simp [String.append_assoc, ← String.toList_inj]
      · exact (IsPlain.append (by decide) hsymbol.plain).append (by decide)
      · rw [String.toList_append]
        exact EndsApart.append (by decide) (by decide) _
      · simp [StartsApart, isWordChar]
    · exact ⟨_, by simp [flushLines], herror⟩
    · exact ⟨_, by simp [flushLines], herrorPos⟩

/-- What the functions around a run are listed with, the function a host
calls shows. -/
theorem exists_shows_executeLines (hsymbol : IsWord program.symbolPrefix)
    (h : field ∈ program.outerFields) :
    ∃ line ∈ program.executeLines, Shows line field := by
  have hslots : ∀ (heading : String) {line : String} {lines : List String},
      0 < program.slots.length → line ∈ lines →
      line ∈ program.slotLines heading lines := by
    intro heading line lines hsome hmem
    have hnot : program.slots.isEmpty = false := by
      rw [List.isEmpty_eq_false_iff]
      exact List.ne_nil_of_length_pos hsome
    simp [slotLines, hnot, hmem]
  simp only [outerFields, List.mem_append] at h
  rcases h with (hword | hposition) | hflush
  · simp only [List.mem_cons, List.not_mem_nil, or_false] at hword
    rcases hword with rfl | rfl
    · refine ⟨"  s->" ++ currentField ++ " = (void*) (intptr_t) next;", ?_,
        "  ", " = (void*) (intptr_t) next;", by decide, by decide, by decide,
        by decide⟩
      simp [executeLines, leaveLines]
    · refine ⟨"  if (s->" ++ errorField ++ " != 0) \x7b", ?_,
        "  if (", " != 0) \x7b", by decide, by decide, by decide, by decide⟩
      simp [executeLines, refuseLines]
  · obtain ⟨slot, hslot, rfl⟩ := List.mem_map.mp hposition
    have hsome : 0 < program.slots.length :=
      Nat.zero_lt_of_lt (List.mem_range.mp hslot)
    refine ⟨"  if (s->" ++ positionField slot ++ " != NULL) \x7b", ?_,
      "  if (", " != NULL) \x7b", by simp [String.append_assoc], by decide,
      by decide, by decide⟩
    have hmem : "  if (s->" ++ positionField slot ++ " != NULL) \x7b"
        ∈ (List.range program.slots.length).flatMap restartLines :=
      List.mem_flatMap.mpr ⟨slot, hslot, List.mem_cons_self⟩
    have hline := hslots "  /* restart spans */" hsome hmem
    simp only [executeLines, List.mem_append]
    tauto
  · obtain ⟨⟨callbacks, slot⟩, hmem, hfield⟩ := List.mem_flatMap.mp hflush
    obtain ⟨line, hline, hshows⟩ := exists_shows_flushLines hsymbol hfield
    have hsome : 0 < program.slots.length :=
      List.length_pos_of_mem (List.fst_mem_of_mem_zipIdx hmem)
    refine ⟨line, ?_, hshows⟩
    simp only [executeLines, List.mem_append]
    exact .inl (.inr (hslots "  /* execute spans */" hsome
      (List.mem_flatMap.mpr ⟨_, hmem, hline⟩)))

end Program

end Bytewise

/-
The struct of a header, read back off its lines.

The struct stands between the line that opens it and the next one that
closes it, and each line of it declares one field: the word before the
semicolon it ends in. What is so read off the text of a header are the
fields that the header has been given, in their order.
-/
import Bytewise.Proofs.Program.Lines
import Bytewise.Proofs.Text.Accesses

namespace Bytewise

namespace Program

open Text

/-- The name that a line declares: the word before the semicolon it ends
in. -/
def declaredName? (line : String) : Option String :=
  match line.toList.reverse with
  | ';' :: before => some (String.ofList (before.takeWhile isWordChar).reverse)
  | _ => none

/-- The names that the lines of a struct declare, in a text. -/
def declaredIn (struct text : String) : List String :=
  (linesBetween ("struct " ++ struct ++ " \x7b") "\x7d;"
    (linesOf text)).filterMap declaredName?

/-- A field is read back off its line. -/
theorem declaredName?_line {field : StateField} (h : IsWord field.name) :
    declaredName? field.line = some field.name := by
  have hchars : field.line.toList.reverse = ';' :: (field.name.toList.reverse
      ++ ' ' :: ("  " ++ field.type).toList.reverse) := by
    simp [StateField.line]
  have hword : ∀ c ∈ field.name.toList.reverse, isWordChar c = true :=
    fun c hc => h c (List.mem_reverse.mp hc)
  have hname : (field.name.toList.reverse
      ++ ' ' :: ("  " ++ field.type).toList.reverse).takeWhile isWordChar
        = field.name.toList.reverse := by
    rw [List.takeWhile_append_of_pos hword,
      List.takeWhile_cons_of_neg (by decide), List.append_nil]
  unfold declaredName?
  simp only [hchars, hname, List.reverse_reverse, String.ofList_toList]

variable {symbolPrefix : String} {properties : List Property}
  {slots : List SpanSlot}

/-- No other character becomes a line feed in upper case. -/
theorem eq_lineFeed_of_toUpper {c : Char} (h : c.toUpper = '\n') :
    c = '\n' := by
  unfold Char.toUpper at h
  split at h
  · rename_i hlower
    have hval : c.val = '\n'.val - ('A'.val - 'a'.val) := by
      rw [← congrArg Char.val h, UInt32.add_sub_cancel]
    rw [hval] at hlower
    exact absurd hlower.1 (by decide)
  · exact h

/-- No line feed comes of upper case. -/
theorem lineFeed_notMem_toUpper {text : String} (h : '\n' ∉ text.toList) :
    '\n' ∉ text.toUpper.toList := by
  rw [String.toUpper, String.toList_map]
  intro hmem
  obtain ⟨c, hc, hupper⟩ := List.mem_map.mp hmem
  exact h (eq_lineFeed_of_toUpper hupper ▸ hc)

/-- The lines of a header are lines, if those of its fields are. -/
theorem lineFeed_notMem_headerLines (hsymbol : IsWord symbolPrefix)
    (hfields : ∀ field ∈ stateFields properties slots,
      '\n' ∉ field.line.toList) :
    ∀ line ∈ headerLines symbolPrefix properties slots,
      '\n' ∉ line.toList := by
  have hname := hsymbol.plain.1
  have hguard := lineFeed_notMem_toUpper hname
  have hstruct : ∀ line ∈ structLines symbolPrefix properties slots,
      '\n' ∉ line.toList := by
    refine List.forall_mem_append.mpr ⟨List.forall_mem_append.mpr
      ⟨by simp [hname], fun line hline => ?_⟩, by decide⟩
    obtain ⟨field, hfield, rfl⟩ := List.mem_map.mp hline
    exact hfields field hfield
  refine List.forall_mem_append.mpr
    ⟨List.forall_mem_append.mpr ⟨?_, hstruct⟩, ?_⟩
  · simp [openingLines, includeGuard, stateType, hname, hguard]
  · simp [closingLines, includeGuard, stateType, hname, hguard]

/-- The struct of a header is read back off its lines. -/
theorem declaredIn_header (hsymbol : IsWord symbolPrefix)
    (hlines : ∀ field ∈ stateFields properties slots,
      '\n' ∉ field.line.toList)
    (hnames : ∀ field ∈ stateFields properties slots, IsWord field.name) :
    declaredIn (symbolPrefix ++ "_s") (header symbolPrefix properties slots)
      = (stateFields properties slots).map (·.name) := by
  have hopening : "struct " ++ (symbolPrefix ++ "_s") ++ " \x7b"
      ∉ openingLines symbolPrefix := by
    simp [openingLines, ← String.toList_inj]
  have hclosing : "\x7d;"
      ∉ (stateFields properties slots).map StateField.line := by
    intro hmem
    obtain ⟨field, -, hline⟩ := List.mem_map.mp hmem
    have hfirst := congrArg (·.toList.head?) hline
    simp [StateField.line] at hfirst
  have hread := linesBetween_append hopening hclosing
    (closingLines symbolPrefix)
  have hall : headerLines symbolPrefix properties slots
      = openingLines symbolPrefix
        ++ ("struct " ++ (symbolPrefix ++ "_s") ++ " \x7b")
          :: ((stateFields properties slots).map StateField.line
            ++ "\x7d;" :: closingLines symbolPrefix) := by
    simp [headerLines, structLines, String.append_assoc]
  unfold declaredIn
  rw [header, linesOf_joinLines (lineFeed_notMem_headerLines hsymbol hlines),
    hall, hread, List.filterMap_map]
  refine (List.filterMap_congr fun field hfield =>
    declaredName?_line (hnames field hfield)).trans ?_
  exact congrFun List.filterMap_eq_map _

end Program

end Bytewise

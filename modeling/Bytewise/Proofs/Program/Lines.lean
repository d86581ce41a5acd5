/-
The lines of a body, and the texts quoted in it.

A body is moved right by its lines, which are read off the text. A line ends
at a line feed and loses a carriage return before it, so a text that is
quoted as it is could break its line, or lose a character of its own. A
string literal holds neither of the two: the line it is in stays one line,
and the lines above and below are moved as they are without it
(`indentText_literal`).

Lines above and below are arbitrary here, and may hold line feeds. So the
result does not rest on what other names and texts of a body consist of.
-/
import Bytewise.Program.Printer
import Bytewise.Proofs.Text.Lines
import Bytewise.Proofs.Text.Literal

namespace Bytewise

namespace Program

open Text

variable {indent line left right s : String} {above below lines : List String}

-- ====================================================== lines

/-- The first line comes first, and ends in a line feed. -/
theorem joinLines_cons (line : String) (lines : List String) :
    joinLines (line :: lines) = line ++ "\n" ++ joinLines lines := by
  simp [joinLines]

/-- The lines of joined texts are those of the first, and of the rest. -/
theorem linesOf_joinLines_cons (line : String) (lines : List String) :
    linesOf (joinLines (line :: lines))
      = line.splitOn "\n" ++ linesOf (joinLines lines) := by
  rw [joinLines_cons, linesOf_append]

/-- Lines above and lines below are read apart. -/
theorem linesOf_joinLines_append (above below : List String) :
    linesOf (joinLines (above ++ below))
      = linesOf (joinLines above) ++ linesOf (joinLines below) := by
  induction above with
  | nil => exact congrArg (· ++ _) linesOf_nil.symm
  | cons line above ih =>
      rw [List.cons_append, linesOf_joinLines_cons, linesOf_joinLines_cons, ih,
        List.append_assoc]

/-- The lines of joined texts are those of each of them. -/
theorem linesOf_joinLines_flatMap {α : Type} (items : List α)
    (text : α → List String) : linesOf (joinLines (items.flatMap text))
      = items.flatMap fun item => linesOf (joinLines (text item)) := by
  induction items with
  | nil => exact linesOf_nil
  | cons item items ih =>
      rw [List.flatMap_cons, List.flatMap_cons, linesOf_joinLines_append, ih]

/-- Lines without line feeds are read back off their text. -/
theorem linesOf_joinLines (h : ∀ line ∈ lines, '\n' ∉ line.toList) :
    linesOf (joinLines lines) = lines := by
  induction lines with
  | nil => exact linesOf_nil
  | cons line lines ih =>
      obtain ⟨hline, hlines⟩ := List.forall_mem_cons.mp h
      rw [linesOf_joinLines_cons, splitOn_line hline, ih hlines]
      rfl

/-- A text is moved by its lines. -/
theorem indentText_eq (indent text : String) : indentText indent text
    = (linesOf text).map fun line => indentLine indent (dropReturn line) :=
  rfl

theorem indentText_nil (indent : String) :
    indentText indent (joinLines []) = [] :=
  congrArg (List.map _) linesOf_nil

/-- Lines above and lines below are moved apart. -/
theorem indentText_joinLines_append (indent : String)
    (above below : List String) :
    indentText indent (joinLines (above ++ below))
      = indentText indent (joinLines above)
        ++ indentText indent (joinLines below) := by
  rw [indentText_eq, linesOf_joinLines_append, List.map_append]
  rfl

/-- The lines of parts are moved part by part. -/
theorem mem_indentText_flatMap {α : Type} {items : List α}
    {text : α → List String} :
    line ∈ indentText indent (joinLines (items.flatMap text))
      ↔ ∃ item ∈ items, line ∈ indentText indent (joinLines (text item)) := by
  rw [indentText_eq, linesOf_joinLines_flatMap, List.map_flatMap,
    List.mem_flatMap]
  rfl

/-- Between other lines, a line without line feeds is moved as one line. -/
theorem indentText_insert (h : '\n' ∉ line.toList) (indent : String)
    (above below : List String) :
    indentText indent (joinLines (above ++ line :: below))
      = indentText indent (joinLines above) ++ indentLine indent
          (dropReturn line) :: indentText indent (joinLines below) := by
  rw [indentText_joinLines_append, indentText_eq _ (joinLines (line :: below)),
    linesOf_joinLines_cons, splitOn_line h]
  rfl

/-- A start that is kept on its own is kept before any end. -/
theorem dropReturn_append (left : String) (hleft : dropReturn left = left)
    (right : String) :
    dropReturn (left ++ right) = left ++ dropReturn right := by
  unfold dropReturn
  rw [String.toList_append, List.reverse_append]
  cases hlast : right.toList.reverse with
  | nil =>
      have hempty : right = "" := by simpa using hlast
      rw [hempty, List.nil_append, String.append_empty]
      exact hleft
  | cons c rest =>
      by_cases hc : c = '\r'
      · subst hc
        simp [String.ofList_append]
      · simp [hc]

-- ====================================================== literals

/-- A literal keeps what is before it, and its own end, from being dropped. -/
theorem dropReturn_literal (left s right : String) :
    dropReturn (left ++ stringLiteral s ++ right)
      = left ++ stringLiteral s ++ dropReturn right := by
  refine dropReturn_append _ ?_ right
  simp [dropReturn, stringLiteral]

/-- A literal brings no line feed into its line. -/
theorem lineFeed_notMem_literal (hleft : '\n' ∉ left.toList)
    (hright : '\n' ∉ right.toList)
    (s : String) : '\n' ∉ (left ++ stringLiteral s ++ right).toList := by
  simp only [String.toList_append, List.mem_append, not_or]
  refine ⟨⟨hleft, fun hmem => ?_⟩, hright⟩
  exact absurd (printable_stringLiteral s _ hmem) (by decide)

/-- A line with a literal stays one line, and what is above and below it is
moved as it is. -/
theorem indentText_literal (hleft : '\n' ∉ left.toList)
    (hright : '\n' ∉ right.toList) (indent s : String)
    (above below : List String) :
    indentText indent
      (joinLines (above ++ (left ++ stringLiteral s ++ right) :: below))
      = indentText indent (joinLines above)
        ++ indentLine indent (left ++ stringLiteral s ++ dropReturn right)
          :: indentText indent (joinLines below) := by
  rw [indentText_insert (lineFeed_notMem_literal hleft hright s),
    dropReturn_literal]

-- ====================================================== bodies

/-- The text that a statement quotes. -/
def Stmt.quoted? : Stmt → Option String
  | .trace _ message => some message
  | .setError _ reason => some reason
  | _ => none

/-- A statement that quotes a text has a line with the literal, which does not
start at the margin. -/
theorem stmtLines_quoted (program : Program) {stmt : Stmt}
    (h : stmt.quoted? = some s) :
    ∃ above left right below,
      program.stmtLines stmt = above ++ (left ++ stringLiteral s ++ right)
        :: below
      ∧ '\n' ∉ left.toList ∧ '\n' ∉ right.toList ∧ dropReturn right = right
      ∧ ∀ indent, indentLine indent (left ++ stringLiteral s ++ right)
          = indent ++ (left ++ stringLiteral s ++ right) := by
  cases stmt with
  | trace hook message =>
      obtain rfl := Option.some.inj h
      refine ⟨[hook ++ "(s, (const char*) p, (const char*) endp,"], "  ",
        ");", [], rfl, by decide, by decide, by decide, fun indent => ?_⟩
      simp [indentLine]
  | setError code reason =>
      obtain rfl := Option.some.inj h
      refine ⟨["s->" ++ errorField ++ " = " ++ hexLiteral code ++ ";"],
        "s->" ++ reasonField ++ " = ", ";",
          ["s->" ++ errorPosField ++ " = (const char*) p;"],
        rfl, by decide, by decide, by decide, fun indent => ?_⟩
      simp [indentLine]
  | _ => exact absurd h (by simp [Stmt.quoted?])

/-- Every text that a body quotes is on one line of it, with the lines of the
body above and below that line. -/
theorem indentText_bodyText (program : Program) {state : State} {stmt : Stmt}
    (hmem : stmt ∈ state.body) (h : stmt.quoted? = some s) :
    ∃ above left right below, state.body.flatMap program.stmtLines
        = above ++ (left ++ stringLiteral s ++ right) :: below
      ∧ ∀ indent, indentText indent (program.bodyText state)
          = indentText indent (joinLines above)
            ++ (indent ++ (left ++ stringLiteral s ++ right))
              :: indentText indent (joinLines below) := by
  obtain ⟨above, left, right, below, hlines, hleft, hright, hkept, hindent⟩ :=
    stmtLines_quoted program h
  obtain ⟨before, after, hbody⟩ := List.append_of_mem hmem
  have hsplit : state.body.flatMap program.stmtLines
      = (before.flatMap program.stmtLines ++ above)
        ++ (left ++ stringLiteral s ++ right)
            :: (below ++ after.flatMap program.stmtLines) := by
    rw [hbody, List.flatMap_append, List.flatMap_cons, hlines]
    simp only [List.append_assoc, List.cons_append]
  refine ⟨_, left, right, _, hsplit, fun indent => ?_⟩
  rw [bodyText, hsplit, indentText_literal hleft hright, hkept, hindent]

-- ====================================================== round trip

/-- Any text is quoted so that it can be read back, up to the last character of
the literal and no further, and so that the lines of a body stay what they
are. -/
theorem literal_round_trip (s : String) :
    (∀ behind, readLiteral ((stringLiteral s).toList ++ behind)
      = some (utf8 s, behind))
    ∧ (∀ c ∈ (stringLiteral s).toList, ' ' ≤ c ∧ c ≤ '~')
    ∧ (∀ (indent left right : String) (above below : List String),
        '\n' ∉ left.toList → '\n' ∉ right.toList →
        indentText indent
          (joinLines (above ++ (left ++ stringLiteral s ++ right) :: below))
          = indentText indent (joinLines above)
            ++ indentLine indent (left ++ stringLiteral s ++ dropReturn right)
              :: indentText indent (joinLines below))
    ∧ ∀ (program : Program) (state : State), ∀ stmt ∈ state.body,
        stmt.quoted? = some s →
        ∃ above left right below, state.body.flatMap program.stmtLines
            = above ++ (left ++ stringLiteral s ++ right) :: below
          ∧ ∀ indent, indentText indent (program.bodyText state)
              = indentText indent (joinLines above)
                ++ (indent ++ (left ++ stringLiteral s ++ right))
                  :: indentText indent (joinLines below) :=
  ⟨readLiteral_stringLiteral s, printable_stringLiteral s,
    fun indent _ _ above below hleft hright =>
      indentText_literal hleft hright indent s above below,
    fun program _ _ hmem h => indentText_bodyText program hmem h⟩

/-- A reason of several lines, with a quote, a backslash and an accent before a
digit. -/
def thornyReason : String := "a\n\"\\\u00e97"

/-- The reason is read back from its literal, and stays on one line, where it
stands between two lines as well as in the body that stores it. -/
theorem literal_round_trip_reason :
    readLiteral (stringLiteral thornyReason).toList
      = some ([0x61, 0x0a, 0x22, 0x5c, 0xc3, 0xa9, 0x37], [])
    ∧ indentText "  "
      (joinLines
      (["a"] ++ ("x = " ++ stringLiteral thornyReason ++ ";") :: ["b"]))
      = indentText "  " (joinLines ["a"])
        ++ indentLine "  "
          ("x = " ++ stringLiteral thornyReason ++ dropReturn ";")
          :: indentText "  " (joinLines ["b"])
    ∧ ∃ above left right below,
      ([Stmt.setError 3 thornyReason].flatMap (default : Program).stmtLines
        = above ++ (left ++ stringLiteral thornyReason ++ right) :: below)
      ∧ indentText "    "
        ((default : Program).bodyText ⟨0, true, [.setError 3 thornyReason]⟩)
        = indentText "    " (joinLines above)
          ++ ("    " ++ (left ++ stringLiteral thornyReason ++ right))
            :: indentText "    " (joinLines below) := by
  obtain ⟨hread, -, hline, hbody⟩ := literal_round_trip thornyReason
  refine ⟨?_, hline "  " "x = " ";" ["a"] ["b"] (by decide) (by decide), ?_⟩
  · have h := hread []
    rw [List.append_nil] at h
    rw [h]
    decide
  · obtain ⟨above, left, right, below, hlines, hindent⟩ :=
      hbody default ⟨0, true, [.setError 3 thornyReason]⟩ _
        (List.mem_singleton.mpr rfl) rfl
    exact ⟨above, left, right, below, hlines, hindent "    "⟩

end Program

end Bytewise

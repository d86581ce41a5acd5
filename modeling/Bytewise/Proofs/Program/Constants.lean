/-
Tables and constants, read back.

A table is printed in rows, and a row ends in a comma if another one
follows. Its lines are read one by one, so what they hold is what the
items of the table are, wherever rows are cut. A constant is a table
between a line with its name and one that closes it: its name leads to it,
since the name is its place among the constants.
-/
import Bytewise.Proofs.Program.Accesses
import Bytewise.Proofs.Text.Entries

namespace Bytewise

namespace Text

/-- Numbers at the end of a text are told apart, if the same is behind them
and no digit before them. -/
theorem eq_of_numbered {left left' right : String} {n m : Nat}
    (hleft : ∀ c ∈ left.toList.getLast?, c.isDigit = false)
    (hleft' : ∀ c ∈ left'.toList.getLast?, c.isDigit = false)
    (h : left ++ toString n ++ right = left' ++ toString m ++ right) :
    n = m := by
  have hread : ∀ (left : String) (n : Nat),
      (∀ c ∈ left.toList.getLast?, c.isDigit = false) →
      (((left ++ toString n ++ right).toList.reverse.drop
        right.toList.length).takeWhile Char.isDigit).reverse
        = Nat.toDigits 10 n := by
    intro left n hleft
    have hdigits : ∀ c ∈ (Nat.toDigits 10 n).reverse, c.isDigit = true :=
      fun _ hc => Nat.isDigit_of_mem_toDigits (by decide) (by decide)
        (List.mem_reverse.mp hc)
    have hstop : left.toList.reverse.takeWhile Char.isDigit = [] := by
      rw [← List.head?_reverse] at hleft
      cases hrest : left.toList.reverse with
      | nil => rfl
      | cons c rest =>
          have hc : c.isDigit = false := hleft c (by rw [hrest]; rfl)
          exact List.takeWhile_cons_of_neg (by simp [hc])
    rw [String.toList_append, String.toList_append, List.reverse_append,
      ← List.length_reverse, List.drop_left, List.reverse_append,
      Nat.toString_eq_repr, Nat.toList_repr,
      List.takeWhile_append_of_pos hdigits, hstop, List.append_nil,
      List.reverse_reverse]
  have hdigits := (hread left n hleft).symm.trans (h ▸ hread left' m hleft')
  have hvalue := congrArg (Nat.ofDigitChars 10 · 0) hdigits
  simpa [Nat.ofDigitChars_toDigits] using hvalue

end Text

namespace Program

open Text

-- ====================================================== rows

/-- Blanks in front of a row do not matter. -/
theorem readRow?_dropWhile (text : List Char) :
    readRow? (text.dropWhile (· == ' ')) = readRow? text := by
  induction text with
  | nil => rfl
  | cons c text ih =>
      by_cases hc : c = ' '
      · rw [List.dropWhile_cons_of_pos (by simp [hc]), ih, readRow? , if_pos]
        simp [hc, isGap]
      · rw [List.dropWhile_cons_of_neg (by simp [hc])]

/-- Rows are read one after another. -/
theorem readRows?_cons (line : String) (lines : List String) :
    readRows? (line :: lines) = (readRow? line.toList).bind fun row =>
      (readRows? lines).map (row ++ ·) := by
  unfold readRows?
  cases hrow : readRow? line.toList with
  | none => simp [hrow]
  | some row =>
      cases hrows : lines.mapM fun line => readRow? line.toList with
      | none => simp [hrow, hrows]
      | some rows => simp [hrow, hrows]

/-- Blanks at the start of rows make no difference. -/
theorem readRows?_trimmed (lines : List String) :
    readRows? (lines.map trimmed) = readRows? lines := by
  induction lines with
  | nil => rfl
  | cons line lines ih =>
      rw [List.map_cons, readRows?_cons, readRows?_cons, ih, trimmed,
        String.toList_ofList, readRow?_dropWhile]

/-- A character of joined items is one of the gap or of an item. -/
theorem mem_intercalate {c : Char} {gap : String} {items : List String}
    (h : c ∈ (gap.intercalate items).toList) :
    c ∈ gap.toList ∨ ∃ item ∈ items, c ∈ item.toList := by
  induction items with
  | nil => cases h
  | cons item items ih =>
      cases items with
      | nil =>
          rw [String.intercalate_singleton] at h
          exact .inr ⟨item, List.mem_cons_self, h⟩
      | cons next items =>
          rw [String.intercalate_cons_cons, String.toList_append,
            String.toList_append, List.mem_append, List.mem_append] at h
          rcases h with (h | h) | h
          · exact .inr ⟨item, List.mem_cons_self, h⟩
          · exact .inl h
          · exact (ih h).imp_right fun ⟨other, hmem, hc⟩ =>
              ⟨other, List.mem_cons_of_mem _ hmem, hc⟩

/-- A row of a table is read back, whether or not another one follows. -/
theorem readRow?_row {items : List String} {values : List Nat}
    (h : List.Forall₂ Reads items values) {behind : String}
    (hbehind : behind = "" ∨ behind = ",") :
    readRow? ("  " ++ ", ".intercalate items ++ behind).toList
      = some values := by
  have hblank : ∀ text, readRow? (' ' :: text) = readRow? text :=
    fun text => by
    rw [readRow?, if_pos (by decide)]
  have hchars : ("  " ++ ", ".intercalate items ++ behind).toList
      = ' ' :: ' ' :: ((", ".intercalate items).toList ++ behind.toList) := by
    simp
  rw [hchars, hblank, hblank]
  refine readRow?_intercalate h ?_
  rcases hbehind with rfl | rfl
  · exact .inl rfl
  · exact .inr rfl

/-- A table of one row is that row. -/
theorem tableRows_of_drop_eq_nil {width : Nat} {items : List String}
    (hwidth : width ≠ 0) (h : items.drop width = []) :
    tableRows width items = "  " ++ ", ".intercalate (items.take width)
        ++ "" := by
  have hnone : rows width ([] : List String) = [] := by
    rw [rows, dif_pos (.inr rfl)]
  cases items with
  | nil =>
      rw [tableRows, hnone, List.take_nil]
      rfl
  | cons item items =>
      rw [tableRows, rows, dif_neg (by simp [hwidth]), h, hnone, List.map_cons,
        List.map_nil, String.intercalate_singleton, String.append_empty]

/-- A table of more rows is the first of them and the table of the others. -/
theorem tableRows_of_drop_ne_nil {width : Nat} {items : List String}
    (hwidth : width ≠ 0) (h : items.drop width ≠ []) :
    tableRows width items = "  " ++ ", ".intercalate (items.take width) ++ ","
      ++ "\n" ++ tableRows width (items.drop width) := by
  have hsome : items ≠ [] := fun hnil => h (by rw [hnil, List.drop_nil])
  obtain ⟨row, others, hrows⟩ : ∃ row others,
      rows width (items.drop width) = row :: others := by
    rw [rows, dif_neg (by simp only [hwidth, h, or_self, not_false_eq_true])]
    exact ⟨_, _, rfl⟩
  rw [tableRows, tableRows, rows,
    dif_neg (by simp only [hwidth, hsome, or_self, not_false_eq_true]), hrows,
    List.map_cons, List.map_cons, String.intercalate_cons_cons,
      ← List.map_cons]
  simp only [String.append_assoc]
  rfl

/-- The rows of a table are lines: the first of them, and those of the
others. -/
theorem splitOn_tableRows {width : Nat} {items : List String}
    (hwidth : width ≠ 0) (hlines : ∀ item ∈ items, '\n' ∉ item.toList) :
    ∃ behind others, (tableRows width items).splitOn "\n"
        = ("  " ++ ", ".intercalate (items.take width) ++ behind) :: others
      ∧ (items.drop width = [] ∧ behind = "" ∧ others = []
        ∨ items.drop width ≠ [] ∧ behind = ","
          ∧ others = (tableRows width (items.drop width)).splitOn "\n") := by
  have hrow : ∀ behind : String, '\n' ∉ behind.toList →
      ("  " ++ ", ".intercalate (items.take width) ++ behind).splitOn "\n"
        = ["  " ++ ", ".intercalate (items.take width) ++ behind] := by
    intro behind hbehind
    refine splitOn_line ?_
    simp only [String.toList_append, List.mem_append, not_or]
    refine ⟨⟨by decide, fun hmem => ?_⟩, hbehind⟩
    rcases mem_intercalate hmem with hgap | ⟨item, hitem, hfeed⟩
    · exact absurd hgap (by decide)
    · exact hlines item (List.take_subset _ _ hitem) hfeed
  by_cases hlast : items.drop width = []
  · refine ⟨"", [], ?_, .inl ⟨hlast, rfl, rfl⟩⟩
    rw [tableRows_of_drop_eq_nil hwidth hlast, hrow "" (by decide)]
  · refine ⟨",", _, ?_, .inr ⟨hlast, rfl, rfl⟩⟩
    rw [tableRows_of_drop_ne_nil hwidth hlast, splitOn_append,
      hrow "," (by decide), List.singleton_append]

theorem length_drop_lt {α : Type} {items : List α} {width : Nat}
    (hwidth : width ≠ 0) (h : items.drop width ≠ []) :
    (items.drop width).length < items.length := by
  have := List.length_pos_iff.mpr h
  rw [List.length_drop] at this ⊢
  omega

/-- A table that is printed in rows is read back. -/
theorem readRows?_tableRows {width : Nat} (hwidth : width ≠ 0)
    {items : List String} {values : List Nat}
    (h : List.Forall₂ Reads items values)
    (hlines : ∀ item ∈ items, '\n' ∉ item.toList) :
    readRows? ((tableRows width items).splitOn "\n") = some values := by
  have hfirst := List.forall₂_take width h
  have hrest := List.forall₂_drop width h
  have hvalues := List.take_append_drop width values
  obtain ⟨behind, others, hsplit, ⟨hlast, rfl, rfl⟩ | ⟨hmore, rfl, rfl⟩⟩ :=
    splitOn_tableRows hwidth hlines
  · rw [hlast, List.forall₂_nil_left_iff] at hrest
    rw [hrest, List.append_nil] at hvalues
    rw [hsplit, readRows?_cons, readRow?_row hfirst (.inl rfl), hvalues]
    exact congrArg some (List.append_nil values)
  · have hothers := readRows?_tableRows hwidth hrest fun item hitem =>
      hlines item (List.drop_subset _ _ hitem)
    rw [hsplit, readRows?_cons, readRow?_row hfirst (.inr rfl), hothers]
    exact congrArg some hvalues
termination_by items.length
decreasing_by exact length_drop_lt hwidth hmore

/-- A line of a table is a row of some of its items, behind two blanks. -/
theorem of_mem_tableRows {width : Nat} (hwidth : width ≠ 0)
    {items : List String} (hlines : ∀ item ∈ items, '\n' ∉ item.toList)
    {line : String} (h : line ∈ (tableRows width items).splitOn "\n") :
    ∃ row ⊆ items, ∃ behind, line = "  " ++ ", ".intercalate row ++ behind
      ∧ (behind = "" ∨ behind = ",") := by
  obtain ⟨behind, others, hsplit, hothers⟩ := splitOn_tableRows hwidth hlines
  rw [hsplit] at h
  rcases List.mem_cons.mp h with rfl | h
  · exact ⟨_, List.take_subset _ _, behind, rfl,
      hothers.imp (·.2.1) (·.2.1)⟩
  · rcases hothers with ⟨-, -, rfl⟩ | ⟨hmore, -, rfl⟩
    · cases h
    · obtain ⟨row, hrow, hline⟩ := of_mem_tableRows hwidth
        (fun item hitem => hlines item (List.drop_subset _ _ hitem)) h
      exact ⟨row, List.Subset.trans hrow (List.drop_subset _ _), hline⟩
termination_by items.length
decreasing_by exact length_drop_lt hwidth hmore

/-- A character of a line of a table separates items or is one of an item. -/
theorem notMem_of_mem_tableRows {width : Nat} (hwidth : width ≠ 0)
    {items : List String} (hlines : ∀ item ∈ items, '\n' ∉ item.toList)
    {c : Char} (hblank : c ≠ ' ') (hcomma : c ≠ ',')
    (hitems : ∀ item ∈ items, c ∉ item.toList) {line : String}
    (h : line ∈ (tableRows width items).splitOn "\n") : c ∉ line.toList := by
  obtain ⟨row, hrow, behind, rfl, hbehind⟩ := of_mem_tableRows hwidth hlines h
  have hstart : c ∉ "  ".toList := by simpa using hblank
  have hgap : c ∉ ", ".toList := by simp [hcomma, hblank]
  have hend : c ∉ behind.toList := by
    rcases hbehind with rfl | rfl
    · simp
    · simpa using hcomma
  rw [String.toList_append, String.toList_append, List.mem_append,
    List.mem_append]
  rintro ((hc | hc) | hc)
  · exact hstart hc
  · rcases mem_intercalate hc with hc | ⟨item, hitem, hc⟩
    · exact hgap hc
    · exact hitems item (hrow hitem) hc
  · exact hend hc

-- ====================================================== constants

/-- Reads a constant of the vector unit off the lines of a source. -/
def readConstant? (lines : List String) (name : String) : Option (List Nat) :=
  readRows? (linesBetween ("static const unsigned char ALIGN(16) " ++ name
    ++ "[] = \x7b") "\x7d;" lines)

variable {program : Program}

/-- A byte of a constant is written without line feeds. -/
theorem lineFeed_notMem_byteEntry (b : UInt8) :
    '\n' ∉ (byteEntry b).toList := by
  have hall : ∀ n : Fin 256, '\n' ∉ (byteEntry (UInt8.ofNat n)).toList := by
    decide +kernel
  simpa using hall ⟨b.toNat, b.toNat_lt⟩

/-- The line that opens a constant. -/
def openingLine (program : Program) (align : String) (blob : Blob) : String :=
  "static const unsigned char " ++ align ++ program.blobName blob
    ++ "[] = \x7b"

/-- The rows of a constant are read back. -/
theorem rows_of_blob (blob : Blob) : readRows?
      ((tableRows 11 (blob.bytes.map byteEntry)).splitOn "\n")
        = some (blob.bytes.map (·.toNat))
    ∧ ∀ line ∈ (tableRows 11 (blob.bytes.map byteEntry)).splitOn "\n",
      line.toList.head? = some ' ' := by
  have hlines : ∀ item ∈ blob.bytes.map byteEntry, '\n' ∉ item.toList := by
    intro item hitem
    obtain ⟨b, -, rfl⟩ := List.mem_map.mp hitem
    exact lineFeed_notMem_byteEntry b
  refine ⟨readRows?_tableRows (by decide) ?_ hlines, fun line hline => ?_⟩
  · rw [List.forall₂_map_left_iff, List.forall₂_map_right_iff,
      List.forall₂_same]
    exact fun b _ => reads_byteEntry b
  · obtain ⟨row, -, behind, rfl, -⟩ :=
      of_mem_tableRows (by decide) hlines hline
    simp

/-- What aligns a constant. -/
def alignText (alignment : Option Nat) : String :=
  match alignment with
  | some n => "ALIGN(" ++ toString n ++ ") "
  | none => ""

/-- The line that opens a constant is plain. -/
theorem isPlain_openingLine (program : Program) (blob : Blob) :
    IsPlain (program.openingLine (alignText blob.alignment) blob) := by
  have hstart : IsPlain "static const unsigned char " := by decide
  have hname : IsPlain (program.blobName blob) :=
    IsPlain.append (by decide) (isWord_toString _).plain
  have halign : IsPlain (alignText blob.alignment) := by
    cases blob.alignment with
    | none => exact (by decide)
    | some n =>
        exact (IsPlain.append (by decide) (isWord_toString n).plain).append
          (by decide)
  exact ((hstart.append halign).append hname).append (by decide)

/-- The lines of a constant are one that opens it, its rows and one that
closes it, with lines for the preprocessor around them. -/
theorem linesOf_blobLines (program : Program) (blob : Blob) :
    ∃ above below, linesOf (joinLines (program.blobLines blob))
      = above ++ program.openingLine (alignText blob.alignment) blob
        :: ((tableRows 11 (blob.bytes.map byteEntry)).splitOn "\n"
          ++ "\x7d;" :: below)
    ∧ above ⊆ ["#ifdef __SSE4_2__"]
        ∧ below ⊆ ["#endif  /* __SSE4_2__ */"] := by
  have hopening := (program.isPlain_openingLine blob).1
  have hclosing : "\x7d;".splitOn "\n" = ["\x7d;"] := splitOn_line (by decide)
  have hfixed : ∀ line : String, '\n' ∉ line.toList →
      linesOf (joinLines (if blob.alignment.isSome then [line] else []))
        = if blob.alignment.isSome then [line] else [] := by
    intro line hline
    refine linesOf_joinLines fun line' hmem => ?_
    split at hmem
    · rwa [List.mem_singleton.mp hmem]
    · cases hmem
  have hlines : program.blobLines blob
      = (if blob.alignment.isSome then ["#ifdef __SSE4_2__"] else [])
        ++ program.openingLine (alignText blob.alignment) blob
          :: tableRows 11 (blob.bytes.map byteEntry) :: "\x7d;"
          :: if blob.alignment.isSome then ["#endif  /* __SSE4_2__ */"]
            else [] := by
    rw [blobLines, List.append_assoc]
    rfl
  refine ⟨if blob.alignment.isSome then ["#ifdef __SSE4_2__"] else [],
    if blob.alignment.isSome then ["#endif  /* __SSE4_2__ */"] else [],
    ?_, ?_, ?_⟩
  · rw [hlines, linesOf_joinLines_append, linesOf_joinLines_cons,
      linesOf_joinLines_cons, linesOf_joinLines_cons, splitOn_line hopening,
      hclosing, hfixed _ (by decide), hfixed _ (by decide)]
    rfl
  · split <;> simp
  · split <;> simp

/-- The line that opens a constant tells its place. -/
theorem idxOf_of_openingLine {blob other : Blob}
    (h : program.openingLine (alignText blob.alignment) blob
      = program.openingLine (alignText other.alignment) other) :
    program.blobs.idxOf blob = program.blobs.idxOf other := by
  have hopening : ∀ blob, program.openingLine (alignText blob.alignment) blob
      = "static const unsigned char " ++ alignText blob.alignment
        ++ "llparse_blob" ++ toString (program.blobs.idxOf blob)
        ++ "[] = \x7b" := by
    intro blob
    unfold openingLine blobName
    rw [← String.append_assoc]
  have hstem : ∀ left : String, ∀ c ∈ (left ++ "llparse_blob").toList.getLast?,
      c.isDigit = false := by
    intro left c hc
    rw [String.toList_append, List.getLast?_append] at hc
    have hb : 'b' = c := Option.some.inj hc
    rw [← hb]
    rfl
  rw [hopening, hopening] at h
  exact eq_of_numbered (hstem _) (hstem _) h

/-- A constant of the vector unit is read back under its name. -/
theorem readConstant?_blobsLines {bytes : List UInt8}
    (h : ⟨bytes, some 16⟩ ∈ program.blobs) :
    readConstant? (linesOf (joinLines program.blobsLines))
      (program.blobName ⟨bytes, some 16⟩) = some (bytes.map (·.toNat)) := by
  obtain ⟨before, after, hblobs, hfirst⟩ := List.eq_append_cons_of_mem h
  obtain ⟨above, below, hlines, habove, -⟩ :=
    program.linesOf_blobLines ⟨bytes, some 16⟩
  obtain ⟨hread, hblank⟩ := rows_of_blob ⟨bytes, some 16⟩
  have halign : "static const unsigned char " ++ alignText (some 16)
      = "static const unsigned char ALIGN(16) " := by decide
  have hopening : program.openingLine (alignText (some 16)) ⟨bytes, some 16⟩
      = "static const unsigned char ALIGN(16) "
        ++ program.blobName ⟨bytes, some 16⟩ ++ "[] = \x7b" := by
    rw [← halign]
    rfl
  have hstarts : (program.openingLine (alignText (some 16))
      ⟨bytes, some 16⟩).toList.head? = some 's' := by
    unfold openingLine
    simp
  have hother : ∀ line, line.toList.head? ≠ some 's' →
      program.openingLine (alignText (some 16)) ⟨bytes, some 16⟩ ≠ line :=
    fun line hline => ne_of_head? (by rw [hstarts]; exact hline.symm)
  have hnot : ∀ other ∈ before,
      program.openingLine (alignText (some 16)) ⟨bytes, some 16⟩
        ∉ linesOf (joinLines (program.blobLines other)) := by
    intro other hmem hin
    obtain ⟨above, below, hlines, habove, hbelow⟩ :=
      program.linesOf_blobLines other
    rw [hlines, List.mem_append, List.mem_cons, List.mem_append,
      List.mem_cons] at hin
    rcases hin with hin | hin | hin | hin | hin
    · exact hother _ (by decide) (List.mem_singleton.mp (habove hin))
    · have hplace := (List.idxOf_inj h).mp (idxOf_of_openingLine hin)
      exact hfirst (hplace ▸ hmem)
    · refine hother _ ?_ rfl
      rw [(rows_of_blob other).2 _ hin]
      decide
    · exact hother _ (by decide) hin
    · exact hother _ (by decide) (List.mem_singleton.mp (hbelow hin))
  have hwhole : linesOf (joinLines program.blobsLines)
      = (before.flatMap fun other => linesOf (joinLines
          (program.blobLines other))) ++ above
        ++ program.openingLine (alignText (some 16)) ⟨bytes, some 16⟩
          :: ((tableRows 11 (bytes.map byteEntry)).splitOn "\n"
            ++ "\x7d;" :: (below ++ linesOf (joinLines
              (after.flatMap program.blobLines
                ++ if program.blobs.isEmpty then [] else [""])))) := by
    rw [blobsLines]
    conv_lhs => rw [hblobs]
    rw [List.flatMap_append, List.flatMap_cons, List.append_assoc,
      List.append_assoc, linesOf_joinLines_append, linesOf_joinLines_append,
      linesOf_joinLines_flatMap, hlines, ← hblobs]
    simp only [List.append_assoc, List.cons_append]
  rw [readConstant?, ← hopening, hwhole, linesBetween_append, hread]
  · rw [List.mem_append, List.mem_flatMap, not_or]
    refine ⟨fun ⟨other, hmem, hin⟩ => hnot other hmem hin, fun hin => ?_⟩
    exact hother _ (by decide) (List.mem_singleton.mp (habove hin))
  · intro hin
    have := hblank _ hin
    revert this
    decide

end Program

end Bytewise

/-
The lines of a text.

A text is split at its line feeds. The library's own splitting goes over
positions in a text; here it is brought to lists of characters once, so
that all else about lines is about lists.
-/
import Mathlib.Data.String.Basic

namespace Bytewise

-- ====================================================== splitting

namespace Text

open String

/-- At the end of the text, what has been read since the last line feed is the
last piece. -/
theorem splitOnAux_end (l m : List Char) (acc : List String) :
    splitOnAux (ofList (l ++ m)) "\n" ⟨utf8Len l⟩ ⟨utf8Len (l ++ m)⟩ 0 acc
      = (ofList m :: acc).reverse := by
  have hend := (atEnd_of_valid (l ++ m) []).mpr rfl
  have hpiece := extract_of_valid l m []
  rw [List.append_nil] at hend hpiece
  rw [splitOnAux, if_pos hend, utf8Len_append, hpiece]

/-- A line feed ends a piece, and any other character goes on with it. -/
theorem splitOnAux_step (l m r : List Char) (c : Char) (acc : List String) :
    splitOnAux (ofList (l ++ m ++ c :: r)) "\n" ⟨utf8Len l⟩
      ⟨utf8Len (l ++ m)⟩ 0 acc
      = if c = '\n' then
          splitOnAux (ofList (l ++ m ++ c :: r)) "\n"
            ⟨utf8Len (l ++ (m ++ [c]))⟩
            ⟨utf8Len (l ++ (m ++ [c]))⟩ 0 (ofList m :: acc)
        else
          splitOnAux (ofList (l ++ m ++ c :: r)) "\n" ⟨utf8Len l⟩
            ⟨utf8Len (l ++ (m ++ [c]))⟩ 0 acc := by
  have hmore := (not_congr (atEnd_of_valid (l ++ m) (c :: r))).mpr
    (List.cons_ne_nil c r)
  have hget : Pos.Raw.get (ofList (l ++ m ++ c :: r)) ⟨utf8Len (l ++ m)⟩ = c :=
    get_of_valid (l ++ m) (c :: r)
  have hnext : Pos.Raw.next (ofList (l ++ m ++ c :: r)) ⟨utf8Len (l ++ m)⟩
      = ⟨utf8Len (l ++ (m ++ [c]))⟩ := by
    rw [next_of_valid (l ++ m) c r]
    simp [Nat.add_assoc]
  have hfeed : Pos.Raw.get "\n" 0 = '\n' := by decide
  have hfeedNext : Pos.Raw.next "\n" 0 = ⟨1⟩ := by decide
  have hfeedEnd : Pos.Raw.atEnd "\n" ⟨1⟩ = true := by decide
  rw [splitOnAux, if_neg hmore]
  simp only [hget, hnext, hfeed, hfeedNext, hfeedEnd, if_true, beq_iff_eq]
  split
  next hc =>
    have hsize : ('\n').utf8Size = 1 := by decide
    have hlast : Pos.Raw.unoffsetBy ⟨utf8Len (l ++ (m ++ [c]))⟩ ⟨1⟩
        = ⟨utf8Len l + utf8Len m⟩ := by
      simp [Pos.Raw.unoffsetBy, hc, hsize]
    rw [hlast, extract_of_valid]
  next =>
    have hsame : Pos.Raw.unoffsetBy ⟨utf8Len (l ++ m)⟩ 0
      = ⟨utf8Len (l ++ m)⟩ := rfl
    rw [hsame, hnext]

/-- Line feeds are looked for in `r`, behind the piece `m` that follows `l`.
The pieces found so far are `acc`, the last one first. -/
theorem splitOnAux_lineFeed (l m r : List Char) (acc : List String) :
    splitOnAux (ofList (l ++ m ++ r)) "\n" ⟨utf8Len l⟩ ⟨utf8Len (l ++ m)⟩ 0 acc
      = acc.reverse ++ (List.splitOnPPrepend (· == '\n') r m.reverse).map
          ofList := by
  induction r generalizing l m acc with
  | nil =>
      rw [List.append_nil, splitOnAux_end]
      simp
  | cons c r ih =>
      -- The text as the induction hypothesis has it, with `c` read.
      have hcut : l ++ m ++ c :: r = l ++ (m ++ [c]) ++ r := by simp
      rw [splitOnAux_step]
      split
      next hc =>
        have hrest := ih (l ++ (m ++ [c])) [] (ofList m :: acc)
        rw [List.append_nil] at hrest
        rw [hcut, hrest]
        simp [List.splitOnPPrepend_cons_eq_if, hc]
      next hc =>
        rw [hcut, ih]
        simp [List.splitOnPPrepend_cons_eq_if, hc]

/-- A text is split at its line feeds. -/
theorem splitOn_lineFeed (text : String) :
    text.splitOn "\n" = (text.toList.splitOnP (· == '\n')).map ofList := by
  have h := splitOnAux_lineFeed [] [] text.toList []
  rw [splitOn, if_neg (by decide)]
  simpa using h

/-- What is split behind a line feed is split apart. -/
theorem splitOn_append (above below : String) :
    (above ++ "\n" ++ below).splitOn "\n" = above.splitOn "\n" ++ below.splitOn
        "\n" := by
  simp only [splitOn_lineFeed, String.toList_append, List.append_assoc]
  rw [← List.map_append]
  exact congrArg _ (List.splitOnP_append_cons _ _ (by decide))

/-- A text without line feeds is one piece. -/
theorem splitOn_line {line : String} (h : '\n' ∉ line.toList) :
    line.splitOn "\n" = [line] := by
  rw [splitOn_lineFeed, List.splitOnP_eq_singleton]
  · simp
  · exact fun c hc => beq_eq_false_iff_ne.mpr fun heq => h (heq ▸ hc)

-- ====================================================== lines

/-- The lines of a text, each of which ends in a line feed. -/
def linesOf (text : String) : List String :=
  (text.splitOn "\n").dropLast

/-- What is split off a text with a line feed are the lines down to it. -/
theorem linesOf_append (above below : String) :
    linesOf (above ++ "\n" ++ below) = above.splitOn "\n"
        ++ linesOf below := by
  have hbelow : below.splitOn "\n" ≠ [] := by
    rw [splitOn_lineFeed]
    exact fun h => List.splitOnP_ne_nil _ _ (List.map_eq_nil_iff.mp h)
  unfold linesOf
  rw [splitOn_append, List.dropLast_append_of_ne_nil hbelow]

theorem linesOf_nil : linesOf "" = [] := by
  rw [linesOf, splitOn_line (by decide)]
  rfl

/-- The lines between one that opens a block and the next that closes it. -/
def linesBetween (opening closing : String) (lines : List String) :
    List String :=
  ((lines.dropWhile (· != opening)).drop 1).takeWhile (· != closing)

/-- Of lines with a block, what is between its first line and its last. -/
theorem linesBetween_append {opening closing : String}
    {above body : List String} (habove : opening ∉ above)
    (hbody : closing ∉ body) (below : List String) :
    linesBetween opening closing
      (above ++ opening :: (body ++ closing :: below)) = body := by
  have hdrop : ∀ line ∈ above, (line != opening) = true :=
    fun line hline => bne_iff_ne.mpr fun heq => habove (heq ▸ hline)
  have htake : ∀ line ∈ body, (line != closing) = true :=
    fun line hline => bne_iff_ne.mpr fun heq => hbody (heq ▸ hline)
  rw [linesBetween, List.dropWhile_append_of_pos hdrop,
    List.dropWhile_cons_of_neg (by simp), List.drop_one, List.tail_cons,
    List.takeWhile_append_of_pos htake, List.takeWhile_cons_of_neg (by simp),
    List.append_nil]

-- ====================================================== patterns

/-- What a line has between a start and an end. -/
def between? (left right line : String) : Option String :=
  if left.toList <+: line.toList
      ∧ right.toList <:+ line.toList.drop left.toList.length then
    some (String.ofList ((line.toList.drop left.toList.length).take
      (line.toList.length - left.toList.length - right.toList.length)))
  else none

/-- What stands between two texts is read back. -/
theorem between?_append (left middle right : String) :
    between? left right (left ++ middle ++ right) = some middle := by
  have hrest : (left ++ middle ++ right).toList.drop left.toList.length
      = middle.toList ++ right.toList := by
    simp
  have hlen : (left ++ middle ++ right).toList.length - left.toList.length
      - right.toList.length = middle.toList.length := by
    simp only [String.toList_append, List.length_append]
    omega
  have hstart : left.toList <+: (left ++ middle ++ right).toList := by
    rw [String.append_assoc, String.toList_append]
    exact List.prefix_append _ _
  rw [between?, hrest, hlen, if_pos ⟨hstart, List.suffix_append _ _⟩,
    List.take_left, String.ofList_toList]

/-- Texts differ if they start otherwise. -/
theorem ne_of_head? {a b : String} (h : a.toList.head? ≠ b.toList.head?) :
    a ≠ b :=
  fun heq => h (by rw [heq])

/-- A line that starts otherwise has no such part. -/
theorem between?_eq_none {left right line : String}
    (h : left.toList.head? ≠ line.toList.head?) (hsome : left ≠ "") :
    between? left right line = none := by
  rw [between?, if_neg]
  rintro ⟨⟨rest, hline⟩, -⟩
  rw [← hline, List.head?_append_of_ne_nil _ (by simpa using hsome)] at h
  exact h rfl

/-- A line without the blanks it starts with. -/
def trimmed (line : String) : String :=
  String.ofList (line.toList.dropWhile (· == ' '))

/-- A line without a blank in front stays as it is. -/
theorem trimmed_eq {line : String} (h : line.toList.head? ≠ some ' ') :
    trimmed line = line := by
  unfold trimmed
  cases hline : line.toList with
  | nil => rw [List.dropWhile_nil, ← hline, String.ofList_toList]
  | cons c rest =>
      have hc : c ≠ ' ' := fun heq => h (by rw [hline, heq]; rfl)
      rw [List.dropWhile_cons_of_neg (by simp [hc]), ← hline,
        String.ofList_toList]

/-- What is behind a start that is not blank stays. -/
theorem trimmed_of_left {left : String} (h : trimmed left ≠ "")
    (right : String) : trimmed (left ++ right) = trimmed left ++ right := by
  have hsome : (left.toList.dropWhile (· == ' ')).isEmpty = false := by
    rw [List.isEmpty_eq_false_iff]
    exact fun hnil => h (by rw [trimmed, hnil, String.ofList_nil])
  unfold trimmed
  rw [String.toList_append, List.dropWhile_append, hsome,
    if_neg Bool.false_ne_true, String.ofList_append, String.ofList_toList]

/-- Blanks in front of a line are taken away. -/
theorem trimmed_append {indent : String}
    (h : ∀ c ∈ indent.toList, c = ' ') (line : String) :
    trimmed (indent ++ line) = trimmed line := by
  unfold trimmed
  rw [String.toList_append, List.dropWhile_append_of_pos]
  intro c hc
  rw [h c hc]
  rfl

end Text

end Bytewise

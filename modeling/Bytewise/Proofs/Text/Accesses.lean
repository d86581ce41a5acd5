/-
The fields of a parser state that a text of the target language accesses.

An access is written `s->name`: the word `s`, an arrow, and the word behind
it. The reader goes through a line once and keeps whether the character
before was part of a word, so that no other word ending in an `s` counts.
It cuts string literals and character constants out first, since a text
that is quoted accesses nothing.

Two texts are read apart wherever a character stands between them that is
part of neither a word nor an arrow (`accessesFrom_append`). Every line that
is printed is taken apart at such characters.
-/
import Mathlib.Data.List.Basic
import Bytewise.Proofs.Text.Lines
import Bytewise.Proofs.Text.Literal
import Bytewise.Text.Identifier

namespace Bytewise.Text

-- ====================================================== words

/-- All characters of the text may stand in an identifier. -/
def IsWord (text : String) : Prop :=
  ∀ c ∈ text.toList, isWordChar c = true

instance (text : String) : Decidable (IsWord text) :=
  decidable_of_iff (text.toList.all isWordChar = true) List.all_eq_true

/-- A character that is part of neither a word nor an arrow. -/
def isSeparator (c : Char) : Bool :=
  !isWordChar c && c != '-' && c != '>'

/-- Separators are what neither belongs to words nor to arrows. -/
theorem isSeparator_iff {c : Char} :
    isSeparator c = true ↔ isWordChar c = false ∧ c ≠ '-' ∧ c ≠ '>' := by
  simp [isSeparator, and_assoc]

/-- An identifier is a word. -/
theorem isWord_of_isIdentifier {text : String}
    (h : isIdentifier text = true) : IsWord text := by
  intro c hc
  unfold isIdentifier at h
  generalize text.toList = chars at h hc
  cases chars with
  | nil => cases hc
  | cons first rest =>
      obtain ⟨hfirst, hrest⟩ := Bool.and_eq_true_iff.mp h
      rcases List.mem_cons.mp hc with rfl | hc
      · unfold isWordStart at hfirst
        unfold isWordChar Char.isAlphanum
        simp only [Bool.or_eq_true] at hfirst ⊢
        exact hfirst.imp_left Or.inl
      · exact List.all_eq_true.mp hrest c hc

/-- Words joined end to end are a word. -/
theorem IsWord.append {a b : String} (ha : IsWord a) (hb : IsWord b) :
    IsWord (a ++ b) := by
  intro c hc
  rw [String.toList_append] at hc
  exact (List.mem_append.mp hc).elim (ha c) (hb c)

/-- The digits of a number are a word. -/
theorem isWord_toString (n : Nat) : IsWord (toString n) := by
  intro c hc
  rw [Nat.toString_eq_repr, Nat.repr, String.toList_ofList] at hc
  have hdigit := Nat.isDigit_of_mem_toDigits (by decide) (by decide) hc
  unfold isWordChar Char.isAlphanum
  rw [hdigit, Bool.or_true, Bool.true_or]

/-- The digits of a number in base 16 are a word. -/
theorem isWord_hexDigits (n : Nat) : IsWord (hexDigits n) := by
  have hdigit : ∀ d : Fin 16, isWordChar (Nat.digitChar d) = true := by decide
  intro c hc
  rw [hexDigits, String.toList_ofList] at hc
  induction n using Nat.strong_induction_on with
  | _ n ih =>
      rw [Nat.toDigits_eq_if (by decide)] at hc
      split at hc
      · rename_i hsmall
        rw [List.mem_singleton.mp hc]
        exact hdigit ⟨n, hsmall⟩
      · rcases List.mem_append.mp hc with hc | hc
        · exact ih (n / 16) (by omega) hc
        · rw [List.mem_singleton.mp hc]
          exact hdigit ⟨n % 16, Nat.mod_lt n (by decide)⟩

-- ====================================================== accesses

/-- The names behind `s->` in a text, read from behind a character of a word
or of none. -/
def accessesFrom (inWord : Bool) : List Char → List String
  | [] => []
  | c :: text =>
    (if !inWord && c == 's' && ['-', '>'].isPrefixOf text
      then [String.ofList ((text.drop 2).takeWhile isWordChar)] else [])
    ++ accessesFrom (isWordChar c) text

/-- The names behind `s->` in a text. -/
def accesses (text : String) : List String :=
  accessesFrom false text.toList

/-- What is no word and no arrow keeps what is before from what is behind. -/
@[simp]
theorem accessesFrom_append {c : Char} (hc : isSeparator c = true)
    (inWord : Bool) (left right : List Char) :
    accessesFrom inWord (left ++ c :: right)
      = accessesFrom inWord left ++ accessesFrom false right := by
  obtain ⟨hword, hdash, hhead⟩ := isSeparator_iff.mp hc
  induction left generalizing inWord with
  | nil =>
      have hs : c ≠ 's' := fun h => absurd hword (by rw [h]; decide)
      simp [accessesFrom, hword, hs]
  | cons d left ih =>
      have harrow : ['-', '>'].isPrefixOf (left ++ c :: right)
          = ['-', '>'].isPrefixOf left := by
        rcases left with _ | ⟨e, _ | ⟨f, left⟩⟩
        · simp [List.isPrefixOf, hdash.symm]
        · simp [List.isPrefixOf, hhead.symm]
        · simp [List.isPrefixOf]
      have hname : ['-', '>'].isPrefixOf left = true →
          ((left ++ c :: right).drop 2).takeWhile isWordChar
            = (left.drop 2).takeWhile isWordChar := by
        intro h
        have hlen : 2 ≤ left.length :=
          (List.isPrefixOf_iff_prefix.mp h).length_le
        rw [List.drop_append_of_le_length hlen, List.takeWhile_append]
        split
        · rw [List.takeWhile_cons_of_neg (by simp [hword]), List.append_nil]
          rename_i hall
          exact ((List.takeWhile_prefix _).eq_of_length hall).symm
        · rfl
      rw [List.cons_append, accessesFrom, accessesFrom, ih, harrow]
      split
      · rename_i h
        rw [hname (Bool.and_eq_true_iff.mp h).2, List.append_assoc]
      · rw [List.append_assoc]

/-- A text without arrows accesses nothing. -/
theorem accessesFrom_eq_nil {text : List Char} (h : '>' ∉ text)
    (inWord : Bool) : accessesFrom inWord text = [] := by
  induction text generalizing inWord with
  | nil => rfl
  | cons c text ih =>
      have hrest := List.not_mem_of_not_mem_cons h
      have harrow : ['-', '>'].isPrefixOf text = false := by
        rcases text with _ | ⟨d, _ | ⟨e, text⟩⟩
        · rfl
        · simp [List.isPrefixOf]
        · have he : '>' ≠ e := fun heq => hrest (by simp [← heq])
          simp [List.isPrefixOf, he]
      rw [accessesFrom, ih hrest, harrow, Bool.and_false]
      rfl

/-- There is no end of an arrow in a word. -/
theorem IsWord.arrow_notMem {text : String} (h : IsWord text) :
    '>' ∉ text.toList :=
  fun hmem => absurd (h _ hmem) (by decide)

/-- A word accesses nothing. -/
@[simp]
theorem IsWord.accessesFrom {text : String} (h : IsWord text)
    (inWord : Bool) : accessesFrom inWord text.toList = [] :=
  accessesFrom_eq_nil h.arrow_notMem inWord

/-- A word is read up to the character behind it that is part of none. -/
@[simp]
theorem IsWord.takeWhile {text : String} (h : IsWord text) {c : Char}
    (hc : isWordChar c = false) (behind : List Char) :
    (text.toList ++ c :: behind).takeWhile isWordChar = text.toList := by
  rw [List.takeWhile_append_of_pos h,
    List.takeWhile_cons_of_neg (by simp [hc]), List.append_nil]

-- ====================================================== lines

/-- A line with its literals cut out. Of each the quote that opens it is
left, to keep what is before it from what is behind. -/
def unquoted : List Char → List Char
  | [] => []
  | '"' :: text =>
    match _h : readQuoted text with
    | some (_, behind) => '"' :: unquoted behind
    | none => ['"']
  | '\'' :: '\\' :: _ :: '\'' :: text => '\'' :: unquoted text
  | '\'' :: _ :: '\'' :: text => '\'' :: unquoted text
  | c :: text => c :: unquoted text
termination_by text => text.length
decreasing_by
  · obtain ⟨quoted, rfl⟩ := exists_of_readQuoted _h
    simp only [List.length_cons, List.length_append]
    omega
  all_goals
    simp only [List.length_cons]
    omega

/-- What is no quote stays. -/
theorem unquoted_cons {c : Char} (h : c ≠ '"' ∧ c ≠ '\'')
    (text : List Char) : unquoted (c :: text) = c :: unquoted text := by
  rw [unquoted]
  · exact h.1
  · exact fun _ _ hc => absurd hc h.2
  · exact fun _ _ hc => absurd hc h.2

/-- What is left outside of quotes begins as the text does. -/
theorem head?_unquoted (text : List Char) :
    (unquoted text).head? = text.head? := by
  fun_cases unquoted text <;> rfl

/-- A quote stays where it is, whatever becomes of what it opens. -/
theorem exists_unquoted (c : Char) (text : List Char) :
    ∃ rest, unquoted (c :: text) = c :: rest := by
  have hhead := head?_unquoted (c :: text)
  cases hunquoted : unquoted (c :: text) with
  | nil => simp [hunquoted] at hhead
  | cons d rest =>
      rw [hunquoted] at hhead
      exact ⟨rest, by rw [Option.some.inj hhead]⟩

/-- Words stay, and end where they did. -/
theorem takeWhile_unquoted (text : List Char) :
    (unquoted text).takeWhile isWordChar = text.takeWhile isWordChar := by
  induction text with
  | nil => rw [unquoted]
  | cons c text ih =>
      by_cases h : c ≠ '"' ∧ c ≠ '\''
      · rw [unquoted_cons h, List.takeWhile_cons, List.takeWhile_cons, ih]
      · have hword : isWordChar c = false := by
          rcases not_and_or.mp h with h | h <;> rw [not_not.mp h] <;> decide
        obtain ⟨rest, hrest⟩ := exists_unquoted c text
        rw [hrest, List.takeWhile_cons_of_neg (by simp [hword]),
          List.takeWhile_cons_of_neg (by simp [hword])]

/-- No arrow comes about where a literal is cut out. -/
theorem arrow_unquoted (text : List Char) :
    ['-', '>'].isPrefixOf (unquoted text) = ['-', '>'].isPrefixOf text := by
  have hone : ∀ text : List Char,
      ['>'].isPrefixOf text = (text.head? == some '>') := by
    intro text
    cases text <;> simp [List.isPrefixOf, eq_comm]
  cases text with
  | nil => rw [unquoted]
  | cons c text =>
      by_cases h : c ≠ '"' ∧ c ≠ '\''
      · rw [unquoted_cons h]
        simp only [List.isPrefixOf, hone, head?_unquoted]
      · obtain ⟨rest, hrest⟩ := exists_unquoted c text
        rw [hrest]
        rcases not_and_or.mp h with h | h <;> rw [not_not.mp h] <;> rfl

/-- The names behind `s->` in a line, outside of its literals. -/
def lineAccesses (line : String) : List String :=
  accessesFrom false (unquoted line.toList)

/-- The word behind an arrow is the same with literals cut out. -/
theorem word_unquoted {text : List Char}
    (h : ['-', '>'].isPrefixOf text = true) :
    ((unquoted text).drop 2).takeWhile isWordChar
      = (text.drop 2).takeWhile isWordChar := by
  obtain ⟨behind, rfl⟩ := List.isPrefixOf_iff_prefix.mp h
  rw [List.cons_append, List.cons_append, List.nil_append,
    unquoted_cons (by decide), unquoted_cons (by decide)]
  exact takeWhile_unquoted behind

/-- What is behind a literal is read from the quote on that closes it. -/
theorem accessesFrom_behind {c : Char} (hc : isSeparator c = true)
    (inWord : Bool) (cut kept : List Char)
    (h : accessesFrom false (unquoted kept) ⊆ accessesFrom false kept) :
    accessesFrom inWord (c :: unquoted kept)
      ⊆ accessesFrom inWord (cut ++ c :: kept) := by
  have hkept := accessesFrom_append hc inWord [] (unquoted kept)
  rw [List.nil_append] at hkept
  rw [hkept, accessesFrom_append hc]
  exact List.append_subset.mpr
    ⟨List.nil_subset _, List.subset_append_of_subset_right _ h⟩

/-- Cutting literals out of a line brings no access into it. -/
theorem accessesFrom_unquoted (inWord : Bool) (text : List Char) :
    accessesFrom inWord (unquoted text) ⊆ accessesFrom inWord text := by
  have hquote : isSeparator '"' = true := by decide
  have hapostrophe : isSeparator '\'' = true := by decide
  induction text using unquoted.induct generalizing inWord with
  | case1 =>
      rw [unquoted]
      exact List.Subset.refl _
  | case2 text bytes behind hread ih =>
      obtain ⟨quoted, rfl⟩ := exists_of_readQuoted hread
      rw [unquoted, hread]
      exact accessesFrom_behind hquote inWord ('"' :: quoted) behind (ih false)
  | case3 text hread =>
      have hnone : accessesFrom inWord ['"'] = [] :=
        accessesFrom_eq_nil (by decide) inWord
      rw [unquoted, hread, hnone]
      exact List.nil_subset _
  | case4 c text ih =>
      rw [unquoted]
      exact accessesFrom_behind hapostrophe inWord ['\'', '\\', c] text
        (ih false)
  | case5 c text _ ih =>
      rw [unquoted]
      · exact accessesFrom_behind hapostrophe inWord ['\'', c] text (ih false)
      · assumption
  | case6 c text hplain hescape hconstant ih =>
      rw [unquoted]
      · rw [accessesFrom, accessesFrom, arrow_unquoted]
        refine List.append_subset.mpr
          ⟨?_, List.subset_append_of_subset_right _ (ih _)⟩
        split
        · rename_i h
          rw [word_unquoted (Bool.and_eq_true_iff.mp h).2]
          exact List.subset_append_left _ _
        · exact List.nil_subset _
      all_goals assumption

/-- A line that counts accesses no more than any text. -/
theorem lineAccesses_subset (line : String) :
    lineAccesses line ⊆ accesses line :=
  accessesFrom_unquoted false line.toList

-- ====================================================== texts

/-- The names behind `s->` in the lines of a text. -/
def accessedIn (text : String) : List String :=
  (text.splitOn "\n").flatMap lineAccesses

/-- What a piece between line feeds accesses, the text accesses. -/
theorem accessesFrom_of_mem_splitOnP (text : List Char) {piece : List Char}
    (h : piece ∈ text.splitOnP (· == '\n')) :
    accessesFrom false piece ⊆ accessesFrom false text := by
  by_cases hmem : '\n' ∈ text
  · obtain ⟨first, rest, htext, hfirst⟩ := List.eq_append_cons_of_mem hmem
    have hshorter : rest.length < text.length := by
      rw [htext, List.length_append, List.length_cons]
      omega
    rw [htext] at h ⊢
    have hone := List.splitOnP_eq_singleton (p := (· == '\n'))
      fun c hc => beq_eq_false_iff_ne.mpr fun heq => hfirst (heq ▸ hc)
    rw [List.splitOnP_append_cons _ _ (by decide), hone] at h
    rw [accessesFrom_append (by decide)]
    rcases List.mem_cons.mp h with rfl | h
    · exact List.subset_append_left _ _
    · exact List.subset_append_of_subset_right _
        (accessesFrom_of_mem_splitOnP rest h)
  · have hone := List.splitOnP_eq_singleton (p := (· == '\n'))
      fun c hc => beq_eq_false_iff_ne.mpr fun heq => hmem (heq ▸ hc)
    rw [hone] at h
    rw [List.mem_singleton.mp h]
    exact List.Subset.refl _
termination_by text.length

/-- A line of a text accesses no more than the text. -/
theorem accesses_of_mem_splitOn {text piece : String}
    (h : piece ∈ text.splitOn "\n") : accesses piece ⊆ accesses text := by
  rw [splitOn_lineFeed] at h
  obtain ⟨chars, hchars, rfl⟩ := List.mem_map.mp h
  unfold accesses
  rw [String.toList_ofList]
  exact accessesFrom_of_mem_splitOnP _ hchars

/-- What is read off the lines of a text stands in the text. -/
theorem accessedIn_subset (text : String) :
    accessedIn text ⊆ accesses text := by
  intro field h
  obtain ⟨line, hline, hfield⟩ := List.mem_flatMap.mp h
  exact accesses_of_mem_splitOn hline (lineAccesses_subset line hfield)

/-- Texts one below the other access what each of them does. -/
theorem accessedIn_append (above below : String) :
    accessedIn (above ++ "\n" ++ below)
      = accessedIn above ++ accessedIn below := by
  unfold accessedIn
  rw [splitOn_append, List.flatMap_append]

/-- A line of its own. -/
theorem accessedIn_line {line : String} (h : '\n' ∉ line.toList) :
    accessedIn line = lineAccesses line := by
  unfold accessedIn
  rw [splitOn_line h, List.flatMap_singleton]

-- ====================================================== plain lines

/-- A line without line feeds and literals. -/
def IsPlain (line : String) : Prop :=
  '\n' ∉ line.toList ∧ '"' ∉ line.toList ∧ '\'' ∉ line.toList

instance (line : String) : Decidable (IsPlain line) :=
  inferInstanceAs (Decidable (_ ∧ _ ∧ _))

/-- A front without quotes is left as it is. -/
theorem unquoted_append {left : List Char}
    (h : '"' ∉ left ∧ '\'' ∉ left) (right : List Char) :
    unquoted (left ++ right) = left ++ unquoted right := by
  induction left with
  | nil => rfl
  | cons c left ih =>
      simp only [List.mem_cons, not_or] at h
      rw [List.cons_append, List.cons_append,
        unquoted_cons ⟨Ne.symm h.1.1, Ne.symm h.2.1⟩, ih ⟨h.1.2, h.2.2⟩]

/-- Of a plain line all is read. -/
theorem IsPlain.accessedIn {line : String} (h : IsPlain line) :
    accessedIn line = accesses line := by
  have hall := unquoted_append ⟨h.2.1, h.2.2⟩ []
  rw [List.append_nil, unquoted, List.append_nil] at hall
  rw [accessedIn_line h.1, lineAccesses, hall]
  rfl

/-- A line with a string literal is read before and behind the literal. -/
theorem lineAccesses_literal {left right : String} (hleft : IsPlain left)
    (hright : IsPlain right) (s : String) :
    lineAccesses (left ++ stringLiteral s ++ right)
      = accesses left ++ accesses right := by
  have hquoted : ∀ behind, unquoted ((stringLiteral s).toList ++ behind)
      = '"' :: unquoted behind := by
    intro behind
    obtain ⟨text, htext⟩ : ∃ text, (stringLiteral s).toList = '"' :: text :=
      ⟨_, by rw [stringLiteral, String.toList_ofList]⟩
    have hread := readLiteral_stringLiteral s behind
    rw [htext, List.cons_append, readLiteral] at hread
    rw [htext, List.cons_append, unquoted, hread]
  have hall := unquoted_append ⟨hright.2.1, hright.2.2⟩ []
  rw [List.append_nil, unquoted, List.append_nil] at hall
  unfold lineAccesses accesses
  rw [String.toList_append, String.toList_append, List.append_assoc,
    unquoted_append ⟨hleft.2.1, hleft.2.2⟩, hquoted, hall,
    accessesFrom_append (by decide)]

/-- Plain texts joined end to end are plain. -/
theorem IsPlain.append {left right : String} (hleft : IsPlain left)
    (hright : IsPlain right) : IsPlain (left ++ right) := by
  unfold IsPlain at *
  simp only [String.toList_append, List.mem_append, not_or]
  tauto

-- ====================================================== what is shown

/-- No word goes on over the end of the text. -/
def EndsApart (text : List Char) : Prop :=
  text.getLast?.all (!isWordChar ·) = true

/-- No word goes on over the start of the text. -/
def StartsApart (text : List Char) : Prop :=
  text.head?.all (!isWordChar ·) = true

instance (text : List Char) : Decidable (EndsApart text) :=
  inferInstanceAs (Decidable (_ = true))

instance (text : List Char) : Decidable (StartsApart text) :=
  inferInstanceAs (Decidable (_ = true))

/-- What a text ends in does not depend on what is before it. -/
theorem EndsApart.append {right : List Char} (h : EndsApart right)
    (hsome : right ≠ []) (left : List Char) : EndsApart (left ++ right) := by
  rw [EndsApart, List.getLast?_append_of_ne_nil _ hsome]
  exact h

/-- What a text starts with does not depend on what is behind it. -/
theorem StartsApart.append {left : List Char} (h : StartsApart left)
    (hsome : left ≠ []) (right : List Char) : StartsApart (left ++ right) := by
  rw [StartsApart, List.head?_append_of_ne_nil _ hsome]
  exact h

/-- A word in front of a text that starts apart is all of the word that is
read. -/
theorem StartsApart.takeWhile {field behind : List Char}
    (hfield : ∀ c ∈ field, isWordChar c = true) (h : StartsApart behind) :
    (field ++ behind).takeWhile isWordChar = field := by
  rw [List.takeWhile_append_of_pos hfield]
  cases behind with
  | nil => rw [List.takeWhile_nil, List.append_nil]
  | cons c behind =>
      have hc : isWordChar c = false := by simpa [StartsApart] using h
      rw [List.takeWhile_cons_of_neg (by simp [hc]), List.append_nil]

/-- What starts apart still does where it is cut short. -/
theorem StartsApart.of_prefix {left right : List Char}
    (h : StartsApart (left ++ right)) : StartsApart left := by
  cases left with
  | nil => rfl
  | cons c left => exact h

/-- A field is read behind its arrow, in front of anything that starts
apart. -/
theorem mem_accessesFrom {before field behind : List Char}
    (hbefore : EndsApart before) (hfield : ∀ c ∈ field, isWordChar c = true)
    (hbehind : StartsApart behind) {inWord : Bool}
    (hin : before = [] → inWord = false) :
    String.ofList field
      ∈ accessesFrom inWord
          (before ++ 's' :: '-' :: '>' :: (field ++ behind)) := by
  induction before generalizing inWord with
  | nil =>
      rw [List.nil_append, accessesFrom, hin rfl]
      refine List.mem_append_left _ ?_
      simp [hbehind.takeWhile hfield]
  | cons c before ih =>
      rw [List.cons_append, accessesFrom]
      refine List.mem_append_right _ (ih ?_ fun hnil => ?_)
      · cases before with
        | nil => rfl
        | cons d before => simpa [EndsApart] using hbefore
      · rw [hnil] at hbefore
        simpa [EndsApart] using hbefore

/-- A line accesses a field behind what is plain. What comes behind the
field may be any text that starts apart. -/
def Shows (line field : String) : Prop :=
  ∃ before behind, line = before ++ "s->" ++ field ++ behind
    ∧ IsPlain before ∧ EndsApart before.toList ∧ StartsApart behind.toList

variable {line field : String}

/-- What stands before and behind an access keeps it, if no word goes on. -/
theorem Shows.between (h : Shows line field) (left right : String)
    (hleft : IsPlain left) (hends : EndsApart left.toList)
    (hstarts : StartsApart right.toList) :
    Shows (left ++ line ++ right) field := by
  obtain ⟨before, behind, rfl, hplain, hbefore, hbehind⟩ := h
  refine ⟨left ++ before, behind ++ right, by simp only [String.append_assoc],
    hleft.append hplain, ?_, ?_⟩
  · rw [String.toList_append]
    by_cases hnil : before.toList = []
    · rwa [hnil, List.append_nil]
    · exact hbefore.append hnil _
  · rw [String.toList_append]
    by_cases hnil : behind.toList = []
    · rwa [hnil]
    · exact hbehind.append hnil _

theorem IsWord.plain (h : IsWord field) : IsPlain field :=
  ⟨fun hmem => absurd (h _ hmem) (by decide),
    fun hmem => absurd (h _ hmem) (by decide),
    fun hmem => absurd (h _ hmem) (by decide)⟩

/-- The piece of a line up to its first line feed shows what the line
does. -/
theorem Shows.exists_piece (h : Shows line field) (hfield : IsWord field) :
    ∃ piece ∈ line.splitOn "\n", '\n' ∉ piece.toList ∧ Shows piece field := by
  obtain ⟨before, behind, rfl, hplain, hbefore, hbehind⟩ := h
  have hstart : IsPlain (before ++ "s->" ++ field) :=
    (hplain.append (by decide)).append hfield.plain
  by_cases hfeed : '\n' ∈ behind.toList
  · obtain ⟨left, right, hcut, hleft⟩ := List.eq_append_cons_of_mem hfeed
    have hsplit : behind = String.ofList left ++ "\n" ++ String.ofList right :=
      String.toList_inj.mp (by simp [hcut])
    have hpiece : '\n'
        ∉ (before ++ "s->" ++ field ++ String.ofList left).toList := by
      rw [String.toList_append, String.toList_ofList, List.mem_append, not_or]
      exact ⟨hstart.1, hleft⟩
    refine ⟨before ++ "s->" ++ field ++ String.ofList left, ?_, hpiece,
      before, String.ofList left, rfl, hplain, hbefore, ?_⟩
    · rw [hsplit, ← String.append_assoc, ← String.append_assoc, splitOn_append,
        splitOn_line hpiece]
      exact List.mem_append_left _ List.mem_cons_self
    · rw [hcut] at hbehind
      rw [String.toList_ofList]
      exact hbehind.of_prefix
  · have hpiece : '\n' ∉ (before ++ "s->" ++ field ++ behind).toList := by
      rw [String.toList_append, List.mem_append, not_or]
      exact ⟨hstart.1, hfeed⟩
    refine ⟨_, ?_, hpiece, before, behind, rfl, hplain, hbefore, hbehind⟩
    rw [splitOn_line hpiece]
    exact List.mem_cons_self

/-- What a line shows, it accesses, whatever the literals in it. -/
theorem Shows.mem_lineAccesses (h : Shows line field) (hfield : IsWord field) :
    field ∈ lineAccesses line := by
  obtain ⟨before, behind, rfl, hplain, hbefore, hbehind⟩ := h
  have hstart : IsPlain (before ++ "s->" ++ field) :=
    (hplain.append (by decide)).append hfield.plain
  have hcut : StartsApart (unquoted behind.toList) := by
    rw [StartsApart, head?_unquoted]
    exact hbehind
  have hmem := mem_accessesFrom hbefore hfield hcut fun _ => rfl
  rw [lineAccesses, String.toList_append,
    unquoted_append ⟨hstart.2.1, hstart.2.2⟩]
  simpa using hmem

/-- What a line shows is accessed in it. -/
theorem Shows.mem_accessedIn (h : Shows line field) (hfield : IsWord field) :
    field ∈ accessedIn line := by
  obtain ⟨piece, hpiece, -, hshows⟩ := h.exists_piece hfield
  exact List.mem_flatMap.mpr ⟨piece, hpiece, hshows.mem_lineAccesses hfield⟩

end Bytewise.Text

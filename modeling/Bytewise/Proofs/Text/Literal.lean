/-
String literals read back.

The reader is that of the language the source is in. Behind a backslash it
takes a letter, a quote or a backslash, or else up to three octal digits, as
many as there are; any other character stands for its own bytes. So an
escape that is written with fewer digits than it may have reads differently
before a digit, and a literal can be read back only because octal escapes
are written with all three.

The reader is in step with the writer: what stands for a byte reads as that
byte whatever is behind it (`readQuoted_escapeByte`). The rest is induction
on the bytes.
-/
import Bytewise.Text.Literal

namespace Bytewise.Text

-- ====================================================== the reader

/-- A digit of base 8. -/
def isOctalDigit (c : Char) : Bool :=
  '0' ≤ c && c ≤ '7'

/-- The number that octal digits are, the most significant one first. -/
def octalValue (digits : List Char) : Nat :=
  digits.foldl (fun value c => value * 8 + (c.toNat - '0'.toNat)) 0

/-- Reads what is behind a backslash: the byte it stands for, and the text
behind that. -/
def readEscape : List Char → Option (UInt8 × List Char)
  | '"' :: behind => some (0x22, behind)
  | '\\' :: behind => some (0x5c, behind)
  | 'n' :: behind => some (0x0a, behind)
  | 'r' :: behind => some (0x0d, behind)
  | 't' :: behind => some (0x09, behind)
  | text =>
    let digits := (text.take 3).takeWhile isOctalDigit
    if digits = [] ∨ 255 < octalValue digits then none
    else some (UInt8.ofNat (octalValue digits), text.drop digits.length)

/-- An escape takes up the start of the text, and not nothing. -/
theorem suffix_of_readEscape {text behind : List Char} {b : UInt8}
    (h : readEscape text = some (b, behind)) :
    behind <:+ text ∧ behind.length < text.length := by
  unfold readEscape at h
  split at h
  case h_6 =>
    dsimp only at h
    split at h
    · cases h
    next hdigits =>
      obtain ⟨-, rfl⟩ := Prod.mk.inj (Option.some.inj h)
      have hsome : 0 < ((text.take 3).takeWhile isOctalDigit).length :=
        List.length_pos_iff.mpr fun hnone => hdigits (.inl hnone)
      have hfit := ((List.takeWhile_prefix isOctalDigit
        (l := text.take 3)).trans (List.take_prefix 3 text)).length_le
      refine ⟨List.drop_suffix _ _, ?_⟩
      rw [List.length_drop]
      omega
  all_goals
    obtain ⟨-, rfl⟩ := Prod.mk.inj (Option.some.inj h)
    exact ⟨List.suffix_cons _ _, Nat.lt_succ_self _⟩

/-- Reads a literal from behind its opening quote on: the bytes up to the
closing quote, and the text behind that. -/
def readQuoted : List Char → Option (List UInt8 × List Char)
  | [] => none
  | '"' :: behind => some ([], behind)
  | '\\' :: text =>
    match _h : readEscape text with
    | some (b, behind) => (readQuoted behind).map (Prod.map (b :: ·) id)
    | none => none
  | c :: text =>
    (readQuoted text).map (Prod.map (String.utf8EncodeChar c ++ ·) id)
termination_by text => text.length
decreasing_by
  · have := (suffix_of_readEscape _h).2
    simp only [List.length_cons]
    omega
  · simp only [List.length_cons]
    omega

/-- Reads a string literal: the bytes it stands for, and the text behind it. -/
def readLiteral : List Char → Option (List UInt8 × List Char)
  | '"' :: text => readQuoted text
  | _ => none

-- ====================================================== bytes

/-- What is written as an octal digit is one, and has the value that is
written. -/
theorem octalDigit_spec (n : Nat) :
    isOctalDigit (octalDigit n) = true ∧ (octalDigit n).toNat - '0'.toNat
        = n % 8 := by
  have hall : ∀ d : Fin 8, isOctalDigit (Char.ofNat (0x30 + d)) = true
      ∧ (Char.ofNat (0x30 + d)).toNat - '0'.toNat = d := by decide
  exact hall ⟨n % 8, Nat.mod_lt n (by omega)⟩

/-- Three octal digits tell a byte. -/
theorem octalValue_digits {n : Nat} (h : n < 256) :
    octalValue [octalDigit (n / 64), octalDigit (n / 8), octalDigit n]
        = n := by
  simp only [octalValue, List.foldl_cons, List.foldl_nil,
    (octalDigit_spec _).2]
  omega

/-- Behind a backslash, a text that starts with an octal digit is read as a
number. -/
theorem readEscape_of_digit {c : Char} (hc : isOctalDigit c = true)
    (text : List Char) :
    readEscape (c :: text)
      = let digits := ((c :: text).take 3).takeWhile isOctalDigit
        if digits = [] ∨ 255 < octalValue digits then none
        else some (UInt8.ofNat (octalValue digits), (c :: text).drop
            digits.length) := by
  unfold readEscape
  split
  case h_6 => rfl
  all_goals
    rename_i heq
    obtain ⟨rfl, -⟩ := List.cons.inj heq
    exact absurd hc (by decide)

/-- The three digits of a byte are read as the byte, also if there are more
digits behind. -/
theorem readEscape_digits (b : UInt8) (behind : List Char) :
    readEscape (octalDigit (b.toNat / 64) :: octalDigit (b.toNat / 8)
      :: octalDigit b.toNat
      :: behind) = some (b, behind) := by
  have hb := b.toNat_lt
  rw [readEscape_of_digit (octalDigit_spec _).1]
  simp only [List.take_succ_cons, List.take_zero, List.takeWhile_cons,
    (octalDigit_spec _).1,
    if_true, List.takeWhile_nil, octalValue_digits hb, UInt8.ofNat_toNat]
  rw [if_neg (by simp; omega)]
  rfl

-- With fewer digits than three, a digit behind the escape is taken into it.
example : readEscape ['0', '1', '2', '7'] = some (0x0a, ['7'])
    ∧ readEscape ['1', '2', '7'] = some (0x57, []) := by decide

/-- A printable byte is the one byte of its character, which is an ASCII
character. -/
theorem asciiChar_of_isPrintable {b : UInt8} (h : isPrintable b = true) :
    String.utf8EncodeChar (Utf8.asciiChar b) = [b]
      ∧ ' ' ≤ Utf8.asciiChar b ∧ Utf8.asciiChar b ≤ '~'
      ∧ (Utf8.asciiChar b = '"' → b = 0x22)
          ∧ (Utf8.asciiChar b = '\\' → b = 0x5c) := by
  have hall : ∀ n : Fin 256, isPrintable (UInt8.ofNat n) = true →
      String.utf8EncodeChar (Utf8.asciiChar (UInt8.ofNat n)) = [UInt8.ofNat n]
        ∧ ' ' ≤ Utf8.asciiChar (UInt8.ofNat n)
        ∧ Utf8.asciiChar (UInt8.ofNat n) ≤ '~'
        ∧ (Utf8.asciiChar (UInt8.ofNat n) = '"' → UInt8.ofNat n = 0x22)
        ∧ (Utf8.asciiChar (UInt8.ofNat n) = '\\' → UInt8.ofNat n = 0x5c) := by
    decide +kernel
  have hb : UInt8.ofNat b.toNat = b := UInt8.ofNat_toNat
  rw [← hb] at h ⊢
  exact hall ⟨b.toNat, b.toNat_lt⟩ h

/-- A backslash is read with what it escapes. -/
theorem readQuoted_backslash {text behind : List Char} {b : UInt8}
    (h : readEscape text = some (b, behind)) :
    readQuoted ('\\' :: text) = (readQuoted behind).map
        (Prod.map (b :: ·) id) := by
  rw [readQuoted]
  split
  next heq =>
    obtain ⟨rfl, rfl⟩ := Prod.mk.inj (Option.some.inj (h.symm.trans heq))
    rfl
  next heq => exact absurd (h.symm.trans heq) (Option.some_ne_none _)

/-- A literal takes up the start of the text, up to its closing quote. -/
theorem exists_of_readQuoted {text behind : List Char} {bytes : List UInt8}
    (h : readQuoted text = some (bytes, behind)) :
    ∃ quoted, text = quoted ++ '"' :: behind := by
  induction text using readQuoted.induct generalizing bytes with
  | case1 => simp [readQuoted] at h
  | case2 rest =>
      rw [readQuoted] at h
      obtain ⟨-, rfl⟩ := Prod.mk.inj (Option.some.inj h)
      exact ⟨[], rfl⟩
  | case3 text b rest hread ih =>
      rw [readQuoted_backslash hread] at h
      obtain ⟨⟨_, _⟩, hrest, heq⟩ := Option.map_eq_some_iff.mp h
      obtain ⟨-, rfl⟩ := Prod.mk.inj heq
      obtain ⟨quoted, rfl⟩ := ih hrest
      obtain ⟨escape, rfl⟩ := (suffix_of_readEscape hread).1
      exact ⟨'\\' :: (escape ++ quoted), by simp⟩
  | case4 text hread =>
      rw [readQuoted] at h
      split at h
      next heq => exact absurd (hread.symm.trans heq) nofun
      next => cases h
  | case5 c text hquote hslash ih =>
      rw [readQuoted] at h
      · obtain ⟨⟨_, _⟩, hrest, heq⟩ := Option.map_eq_some_iff.mp h
        obtain ⟨-, rfl⟩ := Prod.mk.inj heq
        obtain ⟨quoted, rfl⟩ := ih hrest
        exact ⟨c :: quoted, rfl⟩
      · exact hquote
      · exact hslash

/-- What is written for a byte is read as that byte, whatever is behind it. -/
theorem readQuoted_escapeByte (b : UInt8) (behind : List Char) :
    readQuoted (escapeByte b ++ behind) = (readQuoted behind).map
        (Prod.map (b :: ·) id) := by
  fun_cases escapeByte b
  case case6 hquote hslash _ _ _ hprintable =>
    obtain ⟨hbytes, -, -, hnoquote, hnoslash⟩ :=
      asciiChar_of_isPrintable hprintable
    rw [List.singleton_append, readQuoted, hbytes]
    · rfl
    · exact fun h => hquote (beq_iff_eq.mpr (hnoquote h))
    · exact fun h => hslash (beq_iff_eq.mpr (hnoslash h))
  case case7 => exact readQuoted_backslash (readEscape_digits b behind)
  all_goals
    rename_i heq
    obtain rfl := beq_iff_eq.mp heq
    exact readQuoted_backslash rfl

/-- The octal digits are printable. -/
theorem printable_octalDigit (n : Nat) : ' ' ≤ octalDigit n
    ∧ octalDigit n ≤ '~' := by
  have h := (octalDigit_spec n).1
  simp only [isOctalDigit, Bool.and_eq_true, decide_eq_true_eq] at h
  exact ⟨Char.le_trans (by decide) h.1, Char.le_trans h.2 (by decide)⟩

/-- Everything written for a byte is printable. -/
theorem printable_of_mem_escapeByte {b : UInt8} {c : Char}
    (h : c ∈ escapeByte b) :
    ' ' ≤ c ∧ c ≤ '~' := by
  revert h
  fun_cases escapeByte b
  case case6 hprintable =>
    intro h
    obtain ⟨-, hlow, hhigh, -⟩ := asciiChar_of_isPrintable hprintable
    obtain rfl := List.mem_singleton.mp h
    exact ⟨hlow, hhigh⟩
  case case7 =>
    simp only [List.mem_cons, List.not_mem_nil, or_false]
    rintro (rfl | rfl | rfl | rfl)
    · decide
    all_goals exact printable_octalDigit _
  all_goals
    simp only [List.mem_cons, List.not_mem_nil, or_false]
    rintro (rfl | rfl) <;> decide

-- ====================================================== texts

/-- A quoted run of bytes, up to its closing quote. -/
theorem readQuoted_flatMap (bytes : List UInt8) (behind : List Char) :
    readQuoted (bytes.flatMap escapeByte ++ '"' :: behind)
        = some (bytes, behind) := by
  induction bytes with
  | nil => rw [List.flatMap_nil, List.nil_append, readQuoted]
  | cons b bytes ih =>
      rw [List.flatMap_cons, List.append_assoc, readQuoted_escapeByte, ih]
      rfl

/-- A string literal is read up to its last character, as the bytes of the
text. -/
theorem readLiteral_stringLiteral (s : String) (behind : List Char) :
    readLiteral ((stringLiteral s).toList ++ behind)
        = some (utf8 s, behind) := by
  have h := readQuoted_flatMap (utf8 s) behind
  rwa [stringLiteral, String.toList_ofList, List.cons_append,
    List.append_assoc, readLiteral]

/-- A string literal is printable. -/
theorem printable_stringLiteral (s : String) :
    ∀ c ∈ (stringLiteral s).toList, ' ' ≤ c ∧ c ≤ '~' := by
  intro c hc
  rw [stringLiteral, String.toList_ofList] at hc
  obtain rfl | hc := List.mem_cons.mp hc
  · decide
  obtain hc | hc := List.mem_append.mp hc
  · obtain ⟨b, -, hb⟩ := List.mem_flatMap.mp hc
    exact printable_of_mem_escapeByte hb
  · obtain rfl := List.mem_singleton.mp hc
    decide

end Bytewise.Text

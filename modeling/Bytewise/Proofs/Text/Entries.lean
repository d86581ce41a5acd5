/-
The entries of a table, read back off its rows.

An entry is a number, in decimal or in hexadecimal digits, or a character
constant, which stands for the number of its character. Entries are read
one before any rest that a comma begins (`Reads`). So a constant may be a
comma or a blank itself, and still ends where it ends.
-/
import Mathlib.Data.List.Basic
import Bytewise.Proofs.Text.Lines
import Bytewise.Text.Literal

namespace Bytewise.Text

-- ====================================================== numbers

/-- A digit in base 16, in small letters. -/
def isHexDigit (c : Char) : Bool :=
  c.isDigit || 'a' ≤ c && c ≤ 'f'

/-- The value of digits in base 16, the first one the most significant. -/
def hexValue (digits : List Char) : Nat :=
  digits.foldl (fun value c => value * 16 + if c.isDigit
    then c.toNat - '0'.toNat else c.toNat - 'a'.toNat + 10) 0

-- ====================================================== entries

/-- Reads an entry, and what is behind it. -/
def readItem? : List Char → Option (Nat × List Char)
  | '\'' :: '\\' :: c :: '\'' :: behind => some (c.toNat, behind)
  | '\'' :: c :: '\'' :: behind => some (c.toNat, behind)
  | '0' :: 'x' :: text =>
    some (hexValue (text.takeWhile isHexDigit), text.dropWhile isHexDigit)
  | c :: text =>
    if c.isDigit then
      some (Nat.ofDigitChars 10 ((c :: text).takeWhile Char.isDigit) 0,
        (c :: text).dropWhile Char.isDigit)
    else none
  | [] => none

/-- A character that may stand between entries. -/
def isGap (c : Char) : Bool :=
  c == ',' || c == ' '

/-- Reads the entries of a row. -/
def readRow? : List Char → Option (List Nat)
  | [] => some []
  | c :: text =>
    if isGap c then readRow? text
    else
      match readItem? (c :: text) with
      | some (value, behind) =>
        if _h : behind.length < (c :: text).length then
          (readRow? behind).map (value :: ·)
        else none
      | none => none
termination_by text => text.length
decreasing_by
  · exact Nat.lt_succ_self _
  · assumption

/-- Reads the entries of rows. -/
def readRows? (lines : List String) : Option (List Nat) :=
  (lines.mapM fun line => readRow? line.toList).map List.flatten

/-- Reads a number. -/
def readNat? (text : String) : Option Nat :=
  match readItem? text.toList with
  | some (value, []) => some value
  | _ => none

-- ====================================================== printed entries

/-- What may be behind an entry: nothing, or the comma of the next one. -/
def EndsEntry (behind : List Char) : Prop :=
  behind = [] ∨ ∃ rest, behind = ',' :: rest

/-- The text is an entry of that value, before anything that ends it. -/
structure Reads (item : String) (value : Nat) : Prop where
  entry : ∀ behind, EndsEntry behind →
    readItem? (item.toList ++ behind) = some (value, behind)
  first : ∃ c rest, item.toList = c :: rest ∧ isGap c = false

/-- Digits are read up to what ends an entry. -/
theorem EndsEntry.cut {behind : List Char} (h : EndsEntry behind)
    {p : Char → Bool} (hcomma : p ',' = false) {digits : List Char}
    (hdigits : ∀ c ∈ digits, p c = true) :
    (digits ++ behind).takeWhile p = digits
      ∧ (digits ++ behind).dropWhile p = behind := by
  rw [List.takeWhile_append_of_pos hdigits,
    List.dropWhile_append_of_pos hdigits]
  rcases h with rfl | ⟨rest, rfl⟩
  · simp
  · simp [hcomma]

/-- A digit begins a number in base 10, if no `x` is behind it. -/
theorem readItem?_of_isDigit {c : Char} (hc : c.isDigit = true)
    {text : List Char} (hx : text.head? ≠ some 'x') :
    readItem? (c :: text) = some (Nat.ofDigitChars 10
        ((c :: text).takeWhile Char.isDigit) 0,
      (c :: text).dropWhile Char.isDigit) := by
  rw [readItem?]
  · rw [if_pos hc]
  · rintro _ _ rfl
    exact absurd hc (by decide)
  · rintro _ _ rfl
    exact absurd hc (by decide)
  · rintro _ - rfl
    exact hx rfl

/-- A number in decimal digits is read back. -/
theorem reads_toString (n : Nat) : Reads (toString n) n := by
  have hdigits : ∀ c ∈ Nat.toDigits 10 n, c.isDigit = true := fun _ hc =>
    Nat.isDigit_of_mem_toDigits (by decide) (by decide) hc
  have hchars : (toString n).toList = Nat.toDigits 10 n := by
    rw [Nat.toString_eq_repr, Nat.toList_repr]
  obtain ⟨c, rest, hcons⟩ := List.exists_cons_of_ne_nil
    (Nat.toDigits_ne_nil : Nat.toDigits 10 n ≠ [])
  have hfirst : c.isDigit = true := hdigits c (hcons ▸ List.mem_cons_self)
  refine ⟨fun behind hbehind => ?_, c, rest, hchars.trans hcons, ?_⟩
  · obtain ⟨htake, hdrop⟩ := hbehind.cut (by decide) hdigits
    have hx : (rest ++ behind).head? ≠ some 'x' := by
      cases rest with
      | nil => rcases hbehind with rfl | ⟨_, rfl⟩ <;> simp
      | cons d rest =>
          have hd : d.isDigit = true := hdigits d (by simp [hcons])
          intro hx
          rw [Option.some.inj hx] at hd
          exact absurd hd (by decide)
    rw [hchars, hcons, List.cons_append, readItem?_of_isDigit hfirst hx,
      ← List.cons_append, ← hcons, htake, hdrop,
      Nat.ofDigitChars_toDigits (by decide) (by decide)]
  · unfold isGap
    by_contra hgap
    simp only [Bool.not_eq_false, Bool.or_eq_true, beq_iff_eq] at hgap
    rcases hgap with rfl | rfl <;> exact absurd hfirst (by decide)

/-- A number that is written is read back. -/
theorem readNat?_toString (n : Nat) : readNat? (toString n) = some n := by
  have hread := (reads_toString n).entry [] (.inl rfl)
  rw [List.append_nil] at hread
  rw [readNat?, hread]

/-- A byte of a constant is read back. -/
theorem reads_byteEntry (b : UInt8) : Reads (byteEntry b) b.toNat := by
  unfold byteEntry
  split
  · rename_i hquote
    rw [beq_iff_eq.mp hquote]
    exact ⟨fun _ _ => rfl, _, _, rfl, rfl⟩
  · split
    · rename_i hslash
      rw [beq_iff_eq.mp hslash]
      exact ⟨fun _ _ => rfl, _, _, rfl, rfl⟩
    · rename_i hquote hslash
      split
      · rename_i hprintable
        have hall : ∀ n : Fin 256, (Char.ofNat n).toNat = n
            ∧ (n.val ≠ 0x5c → Char.ofNat n ≠ '\\') := by
          decide +kernel
        obtain ⟨hvalue, hplain⟩ := hall ⟨b.toNat, b.toNat_lt⟩
        have hc : Utf8.asciiChar b ≠ '\\' := hplain fun heq =>
          hslash (beq_iff_eq.mpr (UInt8.toNat_inj.mp heq))
        refine ⟨fun behind _ => ?_, '\'', _, String.toList_ofList, rfl⟩
        rw [String.toList_ofList]
        show readItem? ('\'' :: Utf8.asciiChar b :: '\'' :: behind) = _
        rw [readItem?]
        · exact congrArg (fun value => some (value, behind)) hvalue
        · intro _ heq _
          exact hc heq
      · have hall : ∀ n : Fin 256,
            (hexDigits n).toList.all isHexDigit = true
            ∧ hexValue (hexDigits n).toList = n := by
          decide +kernel
        obtain ⟨hdigits, hvalue⟩ := hall ⟨b.toNat, b.toNat_lt⟩
        dsimp only at hdigits hvalue
        refine ⟨fun behind hbehind => ?_, '0', _, String.toList_append, rfl⟩
        obtain ⟨htake, hdrop⟩ :=
          hbehind.cut (by decide) (List.all_eq_true.mp hdigits)
        have hchars : ("0x" ++ hexDigits b.toNat).toList ++ behind
            = '0' :: 'x' :: ((hexDigits b.toNat).toList ++ behind) := by
          simp
        rw [hchars, readItem?, htake, hdrop, hvalue]

/-- A row of entries is read one by one. -/
theorem readRow?_item {item : String} {value : Nat} (h : Reads item value)
    {behind : List Char} (hbehind : EndsEntry behind) :
    readRow? (item.toList ++ behind) = (readRow? behind).map (value :: ·) := by
  obtain ⟨c, rest, hcons, hgap⟩ := h.first
  have hread := h.entry behind hbehind
  rw [hcons, List.cons_append] at hread ⊢
  have hshorter : behind.length < (c :: (rest ++ behind)).length := by
    rw [List.length_cons, List.length_append]
    omega
  rw [readRow?, if_neg (by simp [hgap]), hread]
  exact dif_pos hshorter

/-- A row that is printed is read back, whether or not a comma goes on to
the next. -/
theorem readRow?_intercalate {items : List String} {values : List Nat}
    (h : List.Forall₂ Reads items values) {behind : List Char}
    (hbehind : behind = [] ∨ behind = [',']) :
    readRow? ((", ".intercalate items).toList ++ behind) = some values := by
  have hcomma : ∀ text, readRow? (',' :: text) = readRow? text :=
    fun text => by
    rw [readRow?, if_pos (by decide)]
  have hblank : ∀ text, readRow? (' ' :: text) = readRow? text :=
    fun text => by
    rw [readRow?, if_pos (by decide)]
  have hnil : readRow? [] = some [] := by rw [readRow?]
  have hlast : EndsEntry behind ∧ readRow? behind = some [] := by
    rcases hbehind with rfl | rfl
    · exact ⟨.inl rfl, hnil⟩
    · exact ⟨.inr ⟨[], rfl⟩, by rw [hcomma, hnil]⟩
  induction h with
  | nil => exact hlast.2
  | @cons item value items values hitem hitems ih =>
      cases hitems with
      | nil =>
          rw [String.intercalate_singleton, readRow?_item hitem
            hlast.1, hlast.2]
          rfl
      | @cons next _ items _ hnext hitems =>
          have hchars : (", ".intercalate (item :: next :: items)).toList
              ++ behind
              = item.toList ++ ',' :: ' '
                :: ((", ".intercalate (next :: items)).toList ++ behind) := by
            rw [String.intercalate_cons_cons]
            simp
          rw [hchars, readRow?_item hitem (.inr ⟨_, rfl⟩), hcomma, hblank, ih]
          rfl

end Bytewise.Text

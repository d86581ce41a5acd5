/-
Literals of the generated source: numbers in hexadecimal, single bytes as
case labels and as table entries, and quoted strings.

A string literal is written byte by byte. Bytes outside printable ASCII
become octal escapes of exactly three digits, the most that an escape can
have, so a digit after an escape is never taken into it.
-/
import Bytewise.Text.Utf8

namespace Bytewise.Text

/-- A byte with a printable ASCII character. -/
def isPrintable (b : UInt8) : Bool :=
  0x20 ≤ b && b ≤ 0x7e

/-- The digits of `n` in base 16, in small letters. -/
def hexDigits (n : Nat) : String :=
  String.ofList (Nat.toDigits 16 n)

/-- A signed number in hexadecimal: the sign stands before `0x`. -/
def hexLiteral (v : Int32) : String :=
  (if v.toInt < 0 then "-0x" else "0x") ++ hexDigits v.toInt.natAbs

/-- A byte as a case label: a character constant where that needs no escape,
else a number. -/
def byteLabel (b : UInt8) : String :=
  if isPrintable b && b != 0x27 && b != 0x5c then
    String.ofList ['\'', Utf8.asciiChar b, '\'']
  else toString b.toNat

/-- A byte as an entry of a constant table. -/
def byteEntry (b : UInt8) : String :=
  if b == 0x27 then "'\\''"
  else if b == 0x5c then "'\\\\'"
  else if isPrintable b then String.ofList ['\'', Utf8.asciiChar b, '\'']
  else "0x" ++ hexDigits b.toNat

/-- The octal digit of value `n % 8`. -/
def octalDigit (n : Nat) : Char :=
  Char.ofNat (0x30 + n % 8)

/-- How `b` is written inside a string literal. -/
def escapeByte (b : UInt8) : List Char :=
  if b == 0x22 then ['\\', '"']
  else if b == 0x5c then ['\\', '\\']
  else if b == 0x0a then ['\\', 'n']
  else if b == 0x0d then ['\\', 'r']
  else if b == 0x09 then ['\\', 't']
  else if isPrintable b then [Utf8.asciiChar b]
  else ['\\', octalDigit (b.toNat / 64), octalDigit (b.toNat / 8),
    octalDigit b.toNat]

/-- `s` as a string literal. -/
def stringLiteral (s : String) : String :=
  String.ofList ('"' :: ((utf8 s).flatMap escapeByte ++ ['"']))

end Bytewise.Text

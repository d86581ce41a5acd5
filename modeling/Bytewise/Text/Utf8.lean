/-
UTF-8 read leniently: every maximal ill-formed part of the input becomes one
replacement character, and nothing else changes.

A part is maximal in this sense: from a byte on, as many bytes are taken as
begin some well-formed sequence, and if they are not all of one, they are
the part. The reader keeps what it has of the current sequence and reads
each byte once.
-/

namespace Bytewise.Text

/-- The bytes of `s` in UTF-8. -/
def utf8 (s : String) : List UInt8 :=
  s.toUTF8.data.toList

namespace Utf8

/-- The ASCII character of `b`. -/
def asciiChar (b : UInt8) : Char :=
  Char.ofNat b.toNat

/-- A sequence begun and not yet complete. -/
structure Pending where
  /-- Continuation bytes still owed. -/
  owed : Nat
  /-- The least byte that may come next. -/
  low : UInt8
  /-- The greatest byte that may come next. -/
  high : UInt8
  /-- The payload bits read so far. -/
  value : Nat

/-- What stands for an ill-formed part. -/
def replacement : Char := '\uFFFD'

/-- What the first byte of a sequence calls for; none if no sequence starts
with it. -/
def lead? (b : UInt8) : Option Pending :=
  if 0xc2 ≤ b && b ≤ 0xdf then some ⟨1, 0x80, 0xbf, b.toNat - 0xc0⟩
  else if b == 0xe0 then some ⟨2, 0xa0, 0xbf, 0⟩
  else if b == 0xed then some ⟨2, 0x80, 0x9f, 0xd⟩
  else if 0xe1 ≤ b && b ≤ 0xef then some ⟨2, 0x80, 0xbf, b.toNat - 0xe0⟩
  else if b == 0xf0 then some ⟨3, 0x90, 0xbf, 0⟩
  else if b == 0xf4 then some ⟨3, 0x80, 0x8f, 4⟩
  else if 0xf1 ≤ b && b ≤ 0xf3 then some ⟨3, 0x80, 0xbf, b.toNat - 0xf0⟩
  else none

/-- Reads `b` between characters: what it yields at once, and the sequence it
begins. -/
def start (b : UInt8) : List Char × Option Pending :=
  if b < 0x80 then ([asciiChar b], none)
  else match lead? b with
    | some part => ([], some part)
    | none => ([replacement], none)

/-- Reads `b` after the sequence `part`. -/
def resume (part : Pending) (b : UInt8) : List Char × Option Pending :=
  if part.low ≤ b && b ≤ part.high then
    let value := part.value * 64 + (b.toNat - 0x80)
    if part.owed ≤ 1 then ([Char.ofNat value], none)
    else ([], some ⟨part.owed - 1, 0x80, 0xbf, value⟩)
  else
    let (out, next) := start b
    (replacement :: out, next)

/-- The characters of `bytes`, read after the sequence `part` if there is
one. -/
def decode : Option Pending → List UInt8 → List Char
  | none, [] => []
  | some _, [] => [replacement]
  | none, b :: rest => let (out, next) := start b; out ++ decode next rest
  | some part, b :: rest =>
      let (out, next) := resume part b; out ++ decode next rest

end Utf8

/-- `bytes` as text, with a replacement character for each maximal ill-formed
part. -/
def ofUtf8Lossy (bytes : List UInt8) : String :=
  String.ofList (Utf8.decode none bytes)

end Bytewise.Text

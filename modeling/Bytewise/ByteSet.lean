/-
Sets of bytes, one bit per byte value in four 64-bit words.

The set algebra is word-wise, so a union or a difference of two sets costs
four machine operations whatever the sets hold. Equality is equality of
the words, and that is equality of the sets: no byte has two bits.
-/

namespace Bytewise

/-- A set of byte values. Bit `b % 64` of word `b / 64` tells whether `b`
belongs. -/
structure ByteSet where
  words : Vector UInt64 4
deriving DecidableEq, Repr

namespace ByteSet

-- ====================================================== positions

/-- The word that holds the bit of `b`. -/
def wordIndex (b : UInt8) : Fin 4 :=
  ⟨b.toNat / 64, by have := b.toNat_lt; omega⟩

/-- The bit of `b` within its word. -/
def bit (b : UInt8) : UInt64 :=
  1 <<< (b.toUInt64 % 64)

/-- The word of `s` that holds the bit of `b`. -/
def word (s : ByteSet) (b : UInt8) : UInt64 :=
  s.words[wordIndex b]

/-- Every byte value, ascending. -/
def allBytes : List UInt8 :=
  (List.range 256).map UInt8.ofNat

-- ====================================================== building

/-- The set without bytes. -/
def empty : ByteSet :=
  ⟨Vector.replicate 4 0⟩

/-- The set of all 256 bytes. -/
def full : ByteSet :=
  ⟨Vector.replicate 4 0xffffffffffffffff⟩

/-- `s` with `b` added. -/
def insert (s : ByteSet) (b : UInt8) : ByteSet :=
  ⟨s.words.set (wordIndex b) (s.word b ||| bit b)⟩

/-- The set that holds `b` alone. -/
def singleton (b : UInt8) : ByteSet :=
  empty.insert b

/-- The set of the bytes in `bs`. -/
def ofList (bs : List UInt8) : ByteSet :=
  bs.foldl insert empty

instance : EmptyCollection ByteSet := ⟨empty⟩

instance : Inhabited ByteSet := ⟨empty⟩

-- ====================================================== asking

/-- Whether `b` belongs to `s`. -/
def contains (s : ByteSet) (b : UInt8) : Bool :=
  s.word b &&& bit b != 0

/-- Whether `s` holds no byte. -/
def isEmpty (s : ByteSet) : Bool :=
  s.words.all (· == 0)

/-- Whether `s` holds every byte. -/
def isFull (s : ByteSet) : Bool :=
  s.words.all (· == 0xffffffffffffffff)

/-- The bytes of `s`, ascending. -/
def toList (s : ByteSet) : List UInt8 :=
  allBytes.filter s.contains

-- ====================================================== algebra

/-- The bytes in `s`, in `t` or in both. -/
def union (s t : ByteSet) : ByteSet :=
  ⟨Vector.zipWith (· ||| ·) s.words t.words⟩

/-- The bytes in both `s` and `t`. -/
def inter (s t : ByteSet) : ByteSet :=
  ⟨Vector.zipWith (· &&& ·) s.words t.words⟩

/-- The bytes in `s` that are not in `t`. -/
def diff (s t : ByteSet) : ByteSet :=
  ⟨Vector.zipWith (fun a b => a &&& ~~~b) s.words t.words⟩

-- ====================================================== printing

/-- Text for tracing: a name for the two extreme sets, else the members in
braces. -/
def describe (s : ByteSet) : String :=
  if s.isEmpty then "Lattice(empty)"
  else if s.isFull then "Lattice(any)"
  else "\x7b" ++ String.intercalate ", "
    (s.toList.map fun b => toString b.toNat) ++ "\x7d"

end ByteSet

end Bytewise

/-
Bytes as ranges: the runs of consecutive byte values of a list, for the
vector unit to compare with.
-/
import Bytewise.ByteSet

namespace Bytewise.Program

/-- A run of byte values, both ends included. -/
structure ByteRange where
  low : UInt8
  high : UInt8
deriving DecidableEq, Repr, Inhabited

/-- The runs of an ascending list. -/
def runs : List UInt8 → List ByteRange
  | [] => []
  | b :: rest =>
    match runs rest with
    | [] => [⟨b, b⟩]
    | range :: more =>
      if b.toNat + 1 == range.low.toNat then ⟨b, range.high⟩ :: more
      else ⟨b, b⟩ :: range :: more

/-- The fewest ranges that hold exactly the bytes of `keys`, ascending. -/
def byteRanges (keys : List UInt8) : List ByteRange :=
  runs (ByteSet.ofList keys).toList

/-- Ranges as the vector unit takes them: the ends in turn. -/
def rangeBytes (ranges : List ByteRange) : List UInt8 :=
  ranges.flatMap fun range => [range.low, range.high]

end Bytewise.Program

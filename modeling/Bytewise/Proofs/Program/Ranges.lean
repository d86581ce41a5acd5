/-
Bytes as ranges.

The ranges of a list of bytes hold the bytes of the list and no others,
and so do their ends in turn, which a vector comparison takes in pairs, if
they are cut between pairs. The comparison finds the first byte outside:
all bytes before it may be skipped, and there is none to skip just if the
next byte is not in the list.
-/
import Mathlib.Data.List.TakeWhile
import Bytewise.Program.OfParser
import Bytewise.Proofs.ByteSet

namespace Bytewise.Program

-- ============================================================== ranges

/-- Whether a byte lies in a range. -/
def ByteRange.holds (range : ByteRange) (b : UInt8) : Bool :=
  range.low ≤ b && b ≤ range.high

theorem ByteRange.holds_iff {range : ByteRange} {b : UInt8} :
    range.holds b = true ↔ range.low.toNat ≤ b.toNat
        ∧ b.toNat ≤ range.high.toNat := by
  rw [holds, Bool.and_eq_true, decide_eq_true_iff, decide_eq_true_iff,
    UInt8.le_iff_toNat_le,
    UInt8.le_iff_toNat_le]

/-- No range is empty. -/
theorem low_le_high {bs : List UInt8} :
    ∀ range ∈ runs bs, range.low.toNat ≤ range.high.toNat := by
  induction bs with
  | nil => exact fun _ hrange => nomatch hrange
  | cons b rest ih =>
      intro range hrange
      rw [runs] at hrange
      split at hrange
      · obtain rfl := List.mem_singleton.mp hrange
        exact Nat.le_refl _
      · rename_i first more hruns
        have hfirst := ih first (hruns ▸ List.mem_cons_self)
        have hmore : ∀ r ∈ more, r.low.toNat ≤ r.high.toNat := fun r hr =>
          ih r (hruns ▸ List.mem_cons_of_mem _ hr)
        split at hrange
        · rename_i hnext
          rcases List.mem_cons.mp hrange with rfl | hrange
          · have := beq_iff_eq.mp hnext
            dsimp only
            omega
          · exact hmore range hrange
        · rcases List.mem_cons.mp hrange with rfl | hrange
          · exact Nat.le_refl _
          · rcases List.mem_cons.mp hrange with rfl | hrange
            · exact hfirst
            · exact hmore range hrange

/-- Runs hold the bytes that they are made of. -/
theorem exists_holds_runs {bs : List UInt8} {x : UInt8} :
    (∃ range ∈ runs bs, range.holds x = true) ↔ x ∈ bs := by
  have hsingle : ∀ b : UInt8, (⟨b, b⟩ : ByteRange).holds x = true ↔ x = b :=
    fun b => by
    rw [ByteRange.holds_iff, ← UInt8.toNat_inj]
    dsimp only
    omega
  induction bs with
  | nil => simp [runs]
  | cons b rest ih =>
      have hordered : ∀ range ∈ runs rest,
        range.low.toNat ≤ range.high.toNat := low_le_high
      rw [List.mem_cons, ← propext ih, runs]
      split
      · rename_i hruns
        simp [hruns, hsingle]
      · rename_i first more hruns
        rw [hruns] at hordered ⊢
        rw [List.exists_mem_cons_iff]
        split
        · -- the run grows at its low end
          rename_i hnext
          have hgrown : (⟨b, first.high⟩ : ByteRange).holds x = true
              ↔ x = b ∨ first.holds x = true := by
            have := beq_iff_eq.mp hnext
            have := hordered first List.mem_cons_self
            rw [ByteRange.holds_iff, ByteRange.holds_iff, ← UInt8.toNat_inj]
            dsimp only
            omega
          rw [List.exists_mem_cons_iff, hgrown, or_assoc]
        · rw [List.exists_mem_cons_iff, List.exists_mem_cons_iff, hsingle]

/-- The ranges of a list of bytes hold the bytes of the list. -/
theorem exists_holds_byteRanges {keys : List UInt8} {x : UInt8} :
    (∃ range ∈ byteRanges keys, range.holds x = true) ↔ x ∈ keys := by
  unfold byteRanges
  rw [exists_holds_runs, ByteSet.mem_toList, ByteSet.contains_ofList,
    List.contains_iff_mem]

-- =============================================================== pairs

/-- Whether a byte lies in one of the ranges whose ends are listed in turn. -/
def inPairs : List UInt8 → UInt8 → Bool
  | low :: high :: rest, b =>
    (⟨low, high⟩ : ByteRange).holds b || inPairs rest b
  | _, _ => false

theorem inPairs_rangeBytes {ranges : List ByteRange} {b : UInt8} :
    inPairs (rangeBytes ranges) b = true ↔ ∃ range ∈ ranges,
        range.holds b = true := by
  induction ranges with
  | nil => simp [rangeBytes, inPairs]
  | cons range more ih =>
      have hends : rangeBytes (range :: more) = range.low :: range.high
        :: rangeBytes more := rfl
      rw [hends, inPairs, Bool.or_eq_true, List.exists_mem_cons_iff,
        propext ih]

/-- Ends may be cut between pairs. -/
theorem inPairs_cut (k : Nat) (ends : List UInt8) (b : UInt8) :
    inPairs ends b = (inPairs (ends.take (2 * k)) b
        || inPairs (ends.drop (2 * k)) b) := by
  induction k generalizing ends with
  | zero => rfl
  | succ k ih =>
      match ends with
      | [] => rfl
      | [_] => rfl
      | low :: high :: rest =>
          have htwo : 2 * (k + 1) = 2 * k + 2 := rfl
          rw [htwo, List.take_succ_cons, List.take_succ_cons,
            List.drop_succ_cons,
            List.drop_succ_cons, inPairs, inPairs, ih rest, Bool.or_assoc]

/-- The chunks that ranges are cut into for the vector unit. -/
def rangeChunks (keys : List UInt8) : List (List UInt8) :=
  [(rangeBytes (byteRanges keys)).take chunkSize,
    (rangeBytes (byteRanges keys)).drop chunkSize].filter (!·.isEmpty)

/-- The chunks hold the bytes of the list. -/
theorem exists_inPairs_rangeChunks {keys : List UInt8} {x : UInt8} :
    (∃ chunk ∈ rangeChunks keys, inPairs chunk x = true) ↔ x ∈ keys := by
  have hfilled : ∀ chunk : List UInt8, inPairs chunk x = true →
      (!chunk.isEmpty) = true := by
    intro chunk hchunk
    cases chunk with
    | nil => cases hchunk
    | cons low rest => rfl
  have hcut := inPairs_cut 8 (rangeBytes (byteRanges keys)) x
  rw [← exists_holds_byteRanges, ← inPairs_rangeBytes, hcut, Bool.or_eq_true]
  constructor
  · rintro ⟨chunk, hchunk, hx⟩
    rcases List.mem_cons.mp (List.mem_filter.mp hchunk).1 with rfl | hsecond
    · exact Or.inl hx
    · exact Or.inr (List.mem_singleton.mp hsecond ▸ hx)
  · rintro (hx | hx)
    · exact ⟨_, List.mem_filter.mpr ⟨List.mem_cons_self, hfilled _ hx⟩, hx⟩
    · exact ⟨_, List.mem_filter.mpr ⟨List.mem_cons_of_mem _ List.mem_cons_self,
        hfilled _ hx⟩, hx⟩

/-- A chunk of ranges that are few enough fits the vector unit. -/
theorem length_le_of_mem_rangeChunks {keys chunk : List UInt8}
    (hchunk : chunk ∈ rangeChunks keys)
    (hfew : (rangeBytes (byteRanges keys)).length ≤ maxRangeBytes) :
    chunk.length ≤ chunkSize := by
  unfold maxRangeBytes at hfew
  unfold chunkSize
  rcases List.mem_cons.mp (List.mem_filter.mp hchunk).1 with rfl | hsecond
  · exact List.length_take_le _ _
  · rw [List.mem_singleton.mp hsecond, List.length_drop, chunkSize]
    omega

/-- The constant of a chunk is as long as what the vector unit loads. -/
theorem length_chunkBlob {chunk : List UInt8}
    (hchunk : chunk.length ≤ chunkSize) :
    (chunkBlob chunk).bytes.length = chunkSize := by
  unfold chunkBlob
  rw [List.length_append, List.length_replicate]
  omega

-- ============================================================= vectors

/-- What the vector unit finds in the next 16 bytes when it has loaded a
constant: the index of the first one that lies outside of the ranges that the
first `length` bytes loaded are the ends of, or 16. -/
def firstOutside (constant : List UInt8) (length : Nat) (input : List UInt8) :
    Nat :=
  (input.take 16).findIdx fun b => !inPairs ((constant.take 16).take length) b

variable {constant input : List UInt8} {length : Nat}

theorem firstOutside_le : firstOutside constant length input ≤ 16 :=
  Nat.le_trans List.findIdx_le_length (List.length_take_le 16 input)

/-- What comes before lies inside. -/
theorem inPairs_of_mem_take {b : UInt8}
    (hb : b ∈ input.take (firstOutside constant length input)) :
    inPairs ((constant.take 16).take length) b = true := by
  have htake : input.take (firstOutside constant length input)
      = (input.take 16).takeWhile
          (inPairs ((constant.take 16).take length)) := by
    rw [List.takeWhile_eq_take_findIdx_not, List.take_take]
    exact congrArg (input.take ·) (Nat.min_eq_left firstOutside_le).symm
  rw [htake] at hb
  exact List.mem_takeWhile_imp hb

theorem firstOutside_eq_zero {b : UInt8} :
    firstOutside constant length (b :: input) = 0
    ↔ inPairs ((constant.take 16).take length) b = false := by
  unfold firstOutside
  rw [List.take_succ_cons, List.findIdx_cons]
  cases inPairs ((constant.take 16).take length) b <;> simp

/-- What a block of vector comparisons comes to. -/
inductive Skip where
  /-- There are less than 16 bytes, and the block is not for them. -/
  | passes
  /-- It goes that many bytes on, and back to the state. -/
  | reenters (count : Nat)
  /-- It takes the jump behind the comparisons. -/
  | jumps
deriving DecidableEq, Repr

/-- Compares the input with one constant after the other until there are
bytes to skip. Of each constant it takes as many bytes as are told. -/
def skipLoaded (constants : List (List UInt8 × Nat)) (input : List UInt8) :
    Skip :=
  if input.length < 16 then .passes
  else
    match (constants.map fun (constant, length) =>
        firstOutside constant length input).find? (· != 0) with
    | some count => .reenters count
    | none => .jumps

/-- Compares the input with one chunk after the other. -/
def skip (chunks : List (List UInt8)) (input : List UInt8) : Skip :=
  skipLoaded (chunks.map fun chunk => ((chunkBlob chunk).bytes, chunk.length))
    input

/-- A block skips bytes of the list, and jumps if the next byte is not one. -/
theorem skip_rangeChunks {keys : List UInt8}
    (hfew : (rangeBytes (byteRanges keys)).length ≤ maxRangeBytes) {b : UInt8}
    {more : List UInt8} (hroom : 16 ≤ (b :: more).length) :
    ((∃ k, skip (rangeChunks keys) (b :: more) = .reenters k ∧ 1 ≤ k ∧ k ≤ 16
        ∧ ∀ c ∈ (b :: more).take k, c ∈ keys)
      ∨ skip (rangeChunks keys) (b :: more) = .jumps)
    ∧ (skip (rangeChunks keys) (b :: more) = .jumps ↔ b ∉ keys) := by
  have hloaded : ∀ chunk ∈ rangeChunks keys,
      ((chunkBlob chunk).bytes.take 16).take chunk.length = chunk :=
        fun chunk hchunk => by
    have hlength : (chunkBlob chunk).bytes.length ≤ 16 :=
      Nat.le_of_eq
        (length_chunkBlob (length_le_of_mem_rangeChunks hchunk hfew))
    rw [List.take_of_length_le hlength]
    exact List.take_left
  unfold skip skipLoaded
  rw [if_neg (Nat.not_lt.mpr hroom)]
  simp only [List.map_map, Function.comp_def]
  split
  · rename_i count hfind
    have hpos : count ≠ 0 :=
      bne_iff_ne.mp (List.find?_some (p := (· != 0)) hfind)
    obtain ⟨chunk, hchunk, rfl⟩ :=
      List.mem_map.mp (List.mem_of_find?_eq_some hfind)
    have hkeys : ∀ c ∈ (b :: more).take
        (firstOutside (chunkBlob chunk).bytes chunk.length (b :: more)),
            c ∈ keys := by
      intro c hc
      have hin := inPairs_of_mem_take hc
      rw [hloaded chunk hchunk] at hin
      exact exists_inPairs_rangeChunks.mp ⟨chunk, hchunk, hin⟩
    refine ⟨Or.inl ⟨_, rfl, Nat.pos_of_ne_zero hpos, firstOutside_le, hkeys⟩,
      ?_⟩
    refine iff_of_false (fun h => nomatch h) (not_not_intro (hkeys b ?_))
    obtain ⟨k, hk⟩ := Nat.exists_eq_succ_of_ne_zero hpos
    rw [hk]
    exact List.mem_cons_self
  · rename_i hfind
    refine ⟨Or.inr rfl, iff_of_true rfl fun hb => ?_⟩
    obtain ⟨chunk, hchunk, hin⟩ := exists_inPairs_rangeChunks.mpr hb
    have hzero := List.find?_eq_none.mp hfind _ (List.mem_map_of_mem hchunk)
    have hout := firstOutside_eq_zero.mp (not_not.mp (mt bne_iff_ne.mpr hzero))
    rw [hloaded chunk hchunk, hin] at hout
    cases hout

/-- Digits are skipped, and what is no digit is not. -/
example : skip (rangeChunks [0x32, 0x30, 0x31])
    ([0x31, 0x30, 0x32] ++ List.replicate 13 0x2e)
    = .reenters 3 := by
  decide +kernel

end Bytewise.Program

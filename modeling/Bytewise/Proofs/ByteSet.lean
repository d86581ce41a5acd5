/-
Sets of bytes, read through membership.

A set is known by its bits: `contains` at a byte is one bit of one word
(`contains_eq_getLsbD`), so each operation acts on membership as its name
says, and sets with the same members are equal. Each choice of bytes is a
set, the one made of them, and its members are listed in ascending order:
byte sets are the sets of bytes. The number of members grows whenever a set
does; it never exceeds 256.
-/
import Mathlib.Data.List.Count
import Bytewise.ByteSet
import Bytewise.Proofs.List

namespace Bytewise.ByteSet

-- ============================================================== bits

/-- The bit of a byte, as a power of two. -/
theorem toBitVec_bit (b : UInt8) :
    (bit b).toBitVec = BitVec.twoPow 64 (b.toNat % 64) := by
  unfold bit
  rw [UInt64.toBitVec_shiftLeft, BitVec.twoPow]
  simp

/-- Membership is one bit of one word. -/
theorem contains_eq_getLsbD (s : ByteSet) (b : UInt8) :
    s.contains b = (s.word b).toBitVec.getLsbD (b.toNat % 64) := by
  have hlt : b.toNat % 64 < 64 := Nat.mod_lt _ (by omega)
  unfold contains
  generalize s.word b = w
  rw [Bool.eq_iff_iff, bne_iff_ne, ne_eq, ← UInt64.toBitVec_inj,
    UInt64.toBitVec_and,
    toBitVec_bit, BitVec.and_twoPow]
  split
  · rename_i hset
    simp only [hset, iff_true]
    intro hzero
    have := congrArg (fun v => v.getLsbD (b.toNat % 64)) hzero
    simp [hlt] at this
  · rename_i hclear
    simp [hclear]

/-- A byte from its word and its place there. -/
theorem exists_byte (i : Fin 4) {k : Nat} (hk : k < 64) :
    ∃ b : UInt8, wordIndex b = i ∧ b.toNat % 64 = k := by
  refine ⟨UInt8.ofNat (64 * i + k), ?_, ?_⟩
  · have : (UInt8.ofNat (64 * i + k)).toNat = 64 * i + k := by
      rw [UInt8.toNat_ofNat']
      omega
    unfold wordIndex
    apply Fin.ext
    simp only [this]
    omega
  · have : (UInt8.ofNat (64 * i + k)).toNat = 64 * i + k := by
      rw [UInt8.toNat_ofNat']
      omega
    rw [this]
    omega

/-- Sets with the same members are the same. -/
theorem ext_contains {s t : ByteSet} (h : ∀ b, s.contains b = t.contains b) :
    s = t := by
  obtain ⟨ws⟩ := s
  obtain ⟨wt⟩ := t
  congr 1
  ext i hi
  apply congrArg UInt64.toNat
  apply UInt64.toBitVec_inj.mp
  apply BitVec.eq_of_getLsbD_eq
  intro k hk
  obtain ⟨b, hb, rfl⟩ := exists_byte ⟨i, hi⟩ hk
  obtain rfl : b.toNat / 64 = i := congrArg Fin.val hb
  have hbit := h b
  rw [contains_eq_getLsbD, contains_eq_getLsbD] at hbit
  exact hbit

/-- Membership tells sets apart. -/
theorem eq_iff_contains {s t : ByteSet} :
    s = t ↔ ∀ b, s.contains b = t.contains b :=
  ⟨fun h _ => h ▸ rfl, ext_contains⟩

-- ======================================================== operations

@[simp]
theorem contains_empty (b : UInt8) : (∅ : ByteSet).contains b = false := by
  rw [contains_eq_getLsbD]
  show ((Vector.replicate 4 (0 : UInt64))[wordIndex b]).toBitVec.getLsbD _ = _
  simp

/-- The full set contains everything. -/
@[simp]
theorem contains_full (b : UInt8) : full.contains b = true := by
  have hlt : b.toNat % 64 < 64 := Nat.mod_lt _ (by omega)
  rw [contains_eq_getLsbD]
  show ((Vector.replicate 4 (0xffffffffffffffff : UInt64))[wordIndex
    b]).toBitVec.getLsbD _ = _
  have hones : (0xffffffffffffffff : UInt64).toBitVec = BitVec.allOnes 64 :=
    rfl
  rw [Fin.getElem_fin, Vector.getElem_replicate, hones, BitVec.getLsbD_allOnes]
  simpa using hlt

/-- Inserting a byte adds it and no other. -/
@[simp]
theorem contains_insert (s : ByteSet) (a b : UInt8) :
    (s.insert a).contains b = (s.contains b || b == a) := by
  have hlt : b.toNat % 64 < 64 := Nat.mod_lt _ (by omega)
  rw [contains_eq_getLsbD, contains_eq_getLsbD]
  unfold insert word
  dsimp only
  by_cases hw : wordIndex b = wordIndex a
  · have hsame : (b == a) = decide (b.toNat % 64 = a.toNat % 64) := by
      have hdiv : b.toNat / 64 = a.toNat / 64 := congrArg Fin.val hw
      rw [Bool.eq_iff_iff, beq_iff_eq, decide_eq_true_iff, ← UInt8.toNat_inj]
      omega
    rw [hsame]
    simp [hw, toBitVec_bit, hlt, eq_comm]
  · have hne : (b == a) = false := by
      rw [beq_eq_false_iff_ne]
      exact fun h => hw (congrArg wordIndex h)
    have hval : (wordIndex a).val ≠ (wordIndex b).val :=
      fun h => hw (Fin.ext h.symm)
    simp [hne, hval]

/-- A set of one byte contains that byte. -/
@[simp]
theorem contains_singleton (a b : UInt8) :
    (singleton a).contains b = (b == a) := by
  unfold singleton
  rw [contains_insert]
  show ((∅ : ByteSet).contains b || b == a) = _
  rw [contains_empty, Bool.false_or]

/-- A union contains what one of the sets does. -/
@[simp]
theorem contains_union (s t : ByteSet) (b : UInt8) :
    (s.union t).contains b = (s.contains b || t.contains b) := by
  simp [contains_eq_getLsbD, word, union]

/-- An intersection contains what both do. -/
@[simp]
theorem contains_inter (s t : ByteSet) (b : UInt8) :
    (s.inter t).contains b = (s.contains b && t.contains b) := by
  simp [contains_eq_getLsbD, word, inter]

/-- A difference contains what the first does and the second does not. -/
@[simp]
theorem contains_diff (s t : ByteSet) (b : UInt8) :
    (s.diff t).contains b = (s.contains b && !t.contains b) := by
  have hlt : b.toNat % 64 < 64 := Nat.mod_lt _ (by omega)
  simp [contains_eq_getLsbD, word, diff, hlt]

/-- A set made of a list holds the bytes of the list. -/
theorem contains_ofList (bs : List UInt8) (b : UInt8) :
    (ofList bs).contains b = bs.contains b := by
  suffices key : ∀ s : ByteSet, (bs.foldl insert s).contains b
      = (s.contains b || bs.contains b) by
    have := key ∅
    rw [contains_empty, Bool.false_or] at this
    exact this
  induction bs with
  | nil => intro s; simp
  | cons a bs ih =>
      intro s
      rw [List.foldl_cons, ih, contains_insert, List.contains_cons,
        Bool.or_assoc]

/-- The empty set is the one without members. -/
theorem isEmpty_iff (s : ByteSet) : s.isEmpty = true
    ↔ ∀ b, s.contains b = false := by
  constructor
  · intro h b
    have hzero : s.words[wordIndex b] = 0 := by
      have := Vector.all_eq_true.mp h (wordIndex b) (wordIndex b).isLt
      exact beq_iff_eq.mp this
    rw [contains_eq_getLsbD, word, hzero]
    simp
  · intro h
    have : s = ∅ := ext_contains fun b => by rw [h b, contains_empty]
    rw [this]
    show (Vector.replicate 4 (0 : UInt64)).all (· == 0) = true
    simp

/-- The full set is the one that lacks no byte. -/
theorem isFull_iff (s : ByteSet) :
    s.isFull = true ↔ ∀ b, s.contains b = true := by
  constructor
  · intro h b
    have hlt : b.toNat % 64 < 64 := Nat.mod_lt _ (by omega)
    have hones : s.words[wordIndex b] = 0xffffffffffffffff := by
      have := Vector.all_eq_true.mp h (wordIndex b) (wordIndex b).isLt
      exact beq_iff_eq.mp this
    have hbits : (0xffffffffffffffff : UInt64).toBitVec = BitVec.allOnes 64 :=
      rfl
    rw [contains_eq_getLsbD, word, hones, hbits, BitVec.getLsbD_allOnes]
    simpa using hlt
  · intro h
    have : s = full := ext_contains fun b => by rw [h b, contains_full]
    rw [this]
    show (Vector.replicate 4 (0xffffffffffffffff : UInt64)).all
      (· == 0xffffffffffffffff) = true
    simp

/-- Every byte is listed. -/
theorem mem_allBytes (b : UInt8) : b ∈ allBytes := by
  refine List.mem_map.mpr ⟨b.toNat, List.mem_range.mpr b.toNat_lt, ?_⟩
  exact UInt8.ofNat_toNat

/-- The bytes in ascending order. -/
theorem ascending_allBytes : allBytes.Pairwise (· < ·) := by
  unfold allBytes
  rw [List.pairwise_map]
  refine List.pairwise_lt_range.imp_of_mem fun {i j} hi hj hij => ?_
  rw [UInt8.lt_iff_toNat_lt, UInt8.toNat_ofNat', UInt8.toNat_ofNat']
  have := List.mem_range.mp hi
  have := List.mem_range.mp hj
  omega

-- ============================================================ members

/-- The list of a set has its members. -/
theorem mem_toList {s : ByteSet} {b : UInt8} :
    b ∈ s.toList ↔ s.contains b = true := by
  rw [toList, List.mem_filter]
  exact and_iff_right (mem_allBytes b)

theorem ascending_toList (s : ByteSet) : s.toList.Pairwise (· < ·) :=
  ascending_allBytes.filter _

/-- Every set is built from its members. -/
theorem ofList_toList (s : ByteSet) : ofList s.toList = s := by
  apply ext_contains
  intro b
  rw [contains_ofList, Bool.eq_iff_iff, List.contains_iff_mem, mem_toList]

/-- Whatever bytes are asked for, there is a set that holds just these. -/
theorem contains_surjective : Function.Surjective contains := by
  intro p
  refine ⟨ofList (allBytes.filter p), funext fun b => ?_⟩
  rw [contains_ofList, Bool.eq_iff_iff, List.contains_iff_mem, List.mem_filter]
  exact and_iff_right (mem_allBytes b)

/-- The number of members. -/
def card (s : ByteSet) : Nat :=
  s.toList.length

theorem card_le (s : ByteSet) : s.card ≤ 256 := by
  unfold card toList
  refine Nat.le_trans (List.length_filter_le _ _) ?_
  simp [allBytes]

/-- A union that changes a set makes it larger. -/
theorem card_lt_card_union {s t : ByteSet} (h : s.union t ≠ s) :
    s.card < (s.union t).card := by
  obtain ⟨b, hb⟩ : ∃ b, (s.union t).contains b ≠ s.contains b := by
    by_contra hall
    push Not at hall
    exact h (ext_contains hall)
  rw [contains_union] at hb
  unfold card toList
  rw [← List.countP_eq_length_filter, ← List.countP_eq_length_filter]
  refine countP_lt (fun c _ hc => ?_) (mem_allBytes b) ?_ ?_
  · rw [contains_union, hc, Bool.true_or]
  · cases hs : s.contains b with
    | true => rw [hs, Bool.true_or] at hb; exact absurd rfl hb
    | false => rfl
  · cases hs : s.contains b with
    | true => rw [hs, Bool.true_or] at hb; exact absurd rfl hb
    | false =>
        rw [hs, Bool.false_or] at hb; rw [contains_union, hs,
          Bool.false_or]; simpa using hb

-- ============================================================== results

/-- Byte sets are the sets of bytes: the operations do to members what their
names say, the two questions ask for all members at once, sets with the same
members are the same one and every choice of bytes is a set, made of its
members, which are listed in ascending order. -/
theorem sets_of_bytes (s t : ByteSet) (a : UInt8) (bs : List UInt8) :
    (∀ b, (s.union t).contains b = (s.contains b || t.contains b)
      ∧ (s.inter t).contains b = (s.contains b && t.contains b)
      ∧ (s.diff t).contains b = (s.contains b && !t.contains b)
      ∧ (s.insert a).contains b = (s.contains b || b == a)
      ∧ (ofList bs).contains b = bs.contains b)
    ∧ (s.isEmpty = true ↔ ∀ b, s.contains b = false)
    ∧ (s.isFull = true ↔ ∀ b, s.contains b = true)
    ∧ (s = t ↔ ∀ b, s.contains b = t.contains b)
    ∧ Function.Surjective contains ∧ ofList s.toList = s
    ∧ (∀ b, b ∈ s.toList ↔ s.contains b = true)
        ∧ s.toList.Pairwise (· < ·) := by
  refine ⟨fun b => ⟨?_, ?_, ?_, ?_, ?_⟩, isEmpty_iff s, isFull_iff s,
    eq_iff_contains,
    contains_surjective, ofList_toList s, fun _ => mem_toList,
      ascending_toList s⟩
  · exact contains_union s t b
  · exact contains_inter s t b
  · exact contains_diff s t b
  · exact contains_insert s a b
  · exact contains_ofList bs b

end Bytewise.ByteSet

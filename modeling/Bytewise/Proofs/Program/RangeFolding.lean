/-
Folding bytes into ranges.

The runs of a list of bytes are ranges in order that hold just the bytes of
the list, with a byte or more left out between any two. So the bytes next
to a run are not in the list (`RunsOf.gap`), a range that holds an end of a
run and is a run too is the same (`RunsOf.unique`), and no range reaches
from one run into another, which is why fewer ranges do not suffice
(`RunsOf.fewest`).

The runs are read off the list from its end. They can as well be put
together in place, from the lowest byte up, in one list of ends that tells
low from high by position alone (`extendLast`): the byte right behind the
last end replaces it, and any other byte begins a range. A step keeps the
runs of the bytes read so far (`RunsOf.extend`), hence so does the whole
(`RunsOf.foldl`), and both ways come to the same.
-/
import Mathlib.Data.List.Perm.Subperm
import Bytewise.Proofs.Program.Ranges

namespace Bytewise.Program

variable {keys : List UInt8} {ranges others : List ByteRange}
  {range : ByteRange} {b c : UInt8}

-- ================================================================ runs

/-- Ranges in ascending order, none empty and a byte or more left out between
any two, that hold just the bytes of `keys`. -/
structure RunsOf (keys : List UInt8) (ranges : List ByteRange) : Prop where
  ordered : ∀ range ∈ ranges, range.low.toNat ≤ range.high.toNat
  apart : ranges.Pairwise fun a b => a.high.toNat + 2 ≤ b.low.toNat
  held : ∀ b, b ∈ keys ↔ ∃ range ∈ ranges, range.holds b = true

/-- What counts is which bytes are listed. -/
theorem RunsOf.congr {keys' : List UInt8} (h : RunsOf keys ranges)
    (hsame : ∀ b, b ∈ keys' ↔ b ∈ keys) : RunsOf keys' ranges :=
  ⟨h.ordered, h.apart, fun b => (hsame b).trans (h.held b)⟩

/-- What lies in a run is listed. -/
theorem RunsOf.mem (h : RunsOf keys ranges) (hrange : range ∈ ranges)
    (hlow : range.low.toNat ≤ b.toNat) (hhigh : b.toNat ≤ range.high.toNat) :
    b ∈ keys :=
  (h.held b).mpr ⟨range, hrange, ByteRange.holds_iff.mpr ⟨hlow, hhigh⟩⟩

/-- Of two runs one comes before the other. -/
theorem RunsOf.before_or_behind (h : RunsOf keys ranges) {other : ByteRange}
    (hrange : range ∈ ranges) (hother : other ∈ ranges) :
    range = other ∨ range.high.toNat + 2 ≤ other.low.toNat
      ∨ other.high.toNat + 2 ≤ range.low.toNat := by
  have hpairs := List.pairwise_iff_getElem.mp h.apart
  obtain ⟨i, hi, rfl⟩ := List.getElem_of_mem hrange
  obtain ⟨j, hj, rfl⟩ := List.getElem_of_mem hother
  rcases Nat.lt_trichotomy i j with hlt | heq | hgt
  · exact Or.inr (Or.inl (hpairs i j hi hj hlt))
  · subst heq
    exact Or.inl rfl
  · exact Or.inr (Or.inr (hpairs j i hj hi hgt))

/-- The bytes next to a run are left out. -/
theorem RunsOf.gap (h : RunsOf keys ranges) (hrange : range ∈ ranges)
    (hc : c.toNat + 1 = range.low.toNat ∨ c.toNat = range.high.toNat + 1) :
    c ∉ keys := by
  intro hmem
  obtain ⟨other, hother, hholds⟩ := (h.held c).mp hmem
  have hbounds := ByteRange.holds_iff.mp hholds
  have hordered := h.ordered range hrange
  rcases h.before_or_behind hrange hother with rfl | hbefore | hbehind
  · omega
  · omega
  · omega

/-- Below a byte every number is a byte. -/
private theorem exists_toNat {n : Nat} (hn : n ≤ c.toNat) :
    ∃ d : UInt8, d.toNat = n := by
  refine ⟨UInt8.ofNat n, ?_⟩
  have := c.toNat_lt
  rw [UInt8.toNat_ofNat']
  omega

/-- Runs of the same bytes end in the same places. -/
theorem RunsOf.subset (h : RunsOf keys ranges) (h' : RunsOf keys others)
    (hrange : range ∈ ranges) :
    range ∈ others := by
  have hordered := h.ordered range hrange
  obtain ⟨other, hother, hholds⟩ :=
    (h'.held _).mp (h.mem hrange (Nat.le_refl _) hordered)
  have hlow := ByteRange.holds_iff.mp hholds
  have hlows : range.low.toNat = other.low.toNat := by
    by_contra hne
    obtain ⟨d, hd⟩ := exists_toNat (c := range.low)
      (Nat.sub_le range.low.toNat 1)
    exact h.gap hrange (Or.inl (by omega))
      (h'.mem hother (b := d) (by omega) (by omega))
  have hhighs : range.high.toNat = other.high.toNat := by
    rcases Nat.lt_trichotomy range.high.toNat other.high.toNat with hlt
      | heq | hgt
    · obtain ⟨d, hd⟩ := exists_toNat (c := other.high) hlt
      exact absurd (h'.mem hother (by omega) (by omega))
        (h.gap hrange (Or.inr hd))
    · exact heq
    · obtain ⟨d, hd⟩ := exists_toNat (c := range.high) hgt
      exact absurd (h.mem hrange (by omega) (by omega))
        (h'.gap hother (Or.inr hd))
  obtain ⟨low, high⟩ := range
  obtain ⟨low', high'⟩ := other
  obtain rfl : low = low' := UInt8.toNat_inj.mp hlows
  obtain rfl : high = high' := UInt8.toNat_inj.mp hhighs
  exact hother

theorem RunsOf.nodup (h : RunsOf keys ranges) : ranges.Nodup := by
  refine h.apart.imp_of_mem fun {a b} ha _ hab heq => ?_
  subst heq
  have := h.ordered a ha
  omega

/-- There is one way to write runs. -/
theorem RunsOf.unique (h : RunsOf keys ranges) (h' : RunsOf keys others) :
    ranges = others := by
  have hperm : ranges.Perm others :=
    (List.perm_ext_iff_of_nodup h.nodup h'.nodup).mpr
    fun range => ⟨h.subset h', h'.subset h⟩
  refine hperm.eq_of_pairwise (fun a b ha hb hab hba => ?_) h.apart h'.apart
  have := h.ordered a ha
  have := h'.ordered b hb
  omega

/-- No fewer ranges hold the same bytes, in order or not. -/
theorem RunsOf.fewest (h : RunsOf keys ranges)
    (hothers : ∀ b, b ∈ keys ↔ ∃ range ∈ others, range.holds b = true) :
    ranges.length ≤ others.length := by
  have hholder : ∀ range : ByteRange, ∃ other, range ∈ ranges →
      other ∈ others ∧ other.holds range.low = true := by
    intro range
    by_cases hrange : range ∈ ranges
    · obtain ⟨other, hother⟩ :=
        (hothers _).mp (h.mem hrange (Nat.le_refl _) (h.ordered range hrange))
      exact ⟨other, fun _ => hother⟩
    · exact ⟨default, fun h => absurd h hrange⟩
  choose holder hholder using hholder
  -- a range that holds the low ends of two runs would hold the byte above the
  -- first
  have hnodup : (ranges.map holder).Nodup := by
    refine List.pairwise_map.mpr
      (h.apart.imp_of_mem fun {a b} ha hb hab hsame => ?_)
    have hordered := h.ordered a ha
    obtain ⟨hmem, hlow⟩ := hholder a ha
    have hlow' := (hholder b hb).2
    rw [← hsame] at hlow'
    rw [ByteRange.holds_iff] at hlow hlow'
    obtain ⟨c, hc⟩ := exists_toNat (c := b.low) (n := a.high.toNat + 1)
      (by omega)
    refine h.gap ha (Or.inr hc) ((hothers c).mpr ⟨holder a, hmem, ?_⟩)
    rw [ByteRange.holds_iff]
    omega
  have hsubset : ranges.map holder ⊆ others := by
    intro other hother
    obtain ⟨range, hrange, rfl⟩ := List.mem_map.mp hother
    exact (hholder range hrange).1
  have hlength := (List.Nodup.subperm hnodup hsubset).length_le
  rwa [List.length_map] at hlength

-- ======================================================== from the end

/-- Between the runs of an ascending list a byte or more is left out. -/
theorem apart_runs {bs : List UInt8} (hbs : bs.Pairwise (· < ·)) :
    (runs bs).Pairwise fun a b => a.high.toNat + 2 ≤ b.low.toNat := by
  induction bs with
  | nil => exact List.Pairwise.nil
  | cons b rest ih =>
      obtain ⟨hleast, hrest⟩ := List.pairwise_cons.mp hbs
      have hapart := ih hrest
      have hordered : ∀ range ∈ runs rest,
        range.low.toNat ≤ range.high.toNat := low_le_high
      have habove : ∀ range ∈ runs rest, b.toNat < range.low.toNat := by
        intro range hrange
        apply UInt8.lt_iff_toNat_lt.mp
        apply hleast
        apply exists_holds_runs.mp
        exact ⟨range, hrange, ByteRange.holds_iff.mpr
          ⟨Nat.le_refl _, hordered range hrange⟩⟩
      rw [runs]
      split
      · exact List.pairwise_singleton _ _
      · rename_i first more hruns
        rw [hruns] at hapart hordered habove
        split
        · -- the run grows at its low end, and its high end stays
          exact List.pairwise_cons.mpr (List.pairwise_cons.mp hapart)
        · rename_i hnext
          refine List.pairwise_cons.mpr ⟨fun range hrange => ?_, hapart⟩
          have hfirst := habove first List.mem_cons_self
          have hne : b.toNat + 1 ≠ first.low.toNat :=
            fun heq => hnext (beq_iff_eq.mpr heq)
          show b.toNat + 2 ≤ range.low.toNat
          rcases List.mem_cons.mp hrange with rfl | hrange
          · omega
          · have hgap := (List.pairwise_cons.mp hapart).1 range hrange
            have := hordered first List.mem_cons_self
            omega

/-- The ranges of a list are its runs. -/
theorem runsOf_byteRanges (keys : List UInt8) :
    RunsOf keys (byteRanges keys) where
  ordered := low_le_high
  apart := apart_runs (ByteSet.ascending_toList _)
  held _ := exists_holds_byteRanges.symm

-- ============================================================ in place

/-- Takes one more byte into ranges whose ends are listed in turn. The last
range grows if the byte comes right behind it, and nothing comes behind the
greatest byte. -/
def extendLast (ends : List UInt8) (b : UInt8) : List UInt8 :=
  match ends.getLast? with
  | some high =>
    if high.toNat + 1 = b.toNat then ends.dropLast ++ [b] else ends ++ [b, b]
  | none => ends ++ [b, b]

/-- A byte far enough above the runs begins one. -/
theorem RunsOf.push (h : RunsOf keys ranges)
    (hb : ∀ range ∈ ranges, range.high.toNat + 2 ≤ b.toNat) :
    RunsOf (keys ++ [b]) (ranges ++ [⟨b, b⟩]) where
  ordered := by
    intro range hrange
    rcases List.mem_append.mp hrange with hrange | hrange
    · exact h.ordered range hrange
    · rw [List.mem_singleton.mp hrange]
  apart := by
    refine List.pairwise_append.mpr ⟨h.apart, List.pairwise_singleton _ _, ?_⟩
    intro range hrange new hnew
    rw [List.mem_singleton.mp hnew]
    exact hb range hrange
  held := by
    intro c
    have hsingle : (⟨b, b⟩ : ByteRange).holds c = true ↔ c = b := by
      rw [ByteRange.holds_iff, ← UInt8.toNat_inj]
      show b.toNat ≤ c.toNat ∧ c.toNat ≤ b.toNat ↔ _
      omega
    simp [h.held c, or_and_right, exists_or, hsingle]

/-- The byte right above the last run makes it grow. -/
theorem RunsOf.grow {init : List ByteRange} {last : ByteRange}
    (h : RunsOf keys (init ++ [last])) (hb : last.high.toNat + 1 = b.toNat) :
    RunsOf (keys ++ [b]) (init ++ [⟨last.low, b⟩]) where
  ordered := by
    intro range hrange
    rcases List.mem_append.mp hrange with hrange | hrange
    · exact h.ordered range (List.mem_append_left _ hrange)
    · have := h.ordered last List.mem_concat_self
      rw [List.mem_singleton.mp hrange]
      show last.low.toNat ≤ b.toNat
      omega
  apart := by
    obtain ⟨hinit, -, hcross⟩ := List.pairwise_append.mp h.apart
    refine List.pairwise_append.mpr ⟨hinit, List.pairwise_singleton _ _, ?_⟩
    intro range hrange new hnew
    rw [List.mem_singleton.mp hnew]
    exact hcross range hrange last List.mem_cons_self
  held := by
    intro c
    have hgrown : (⟨last.low, b⟩ : ByteRange).holds c = true
        ↔ last.holds c = true ∨ c = b := by
      have := h.ordered last List.mem_concat_self
      rw [ByteRange.holds_iff, ByteRange.holds_iff, ← UInt8.toNat_inj]
      show last.low.toNat ≤ c.toNat ∧ c.toNat ≤ b.toNat ↔ _
      omega
    simp [h.held c, or_and_right, exists_or, hgrown, or_assoc]

/-- One step in place: from the ends of the runs of what has been read to those
of the runs of what has been read then. -/
theorem RunsOf.extend (h : RunsOf keys ranges) (hb : ∀ k ∈ keys, k < b) :
    ∃ ranges', extendLast (rangeBytes ranges) b = rangeBytes ranges'
      ∧ RunsOf (keys ++ [b]) ranges' := by
  rcases List.eq_nil_or_concat' ranges with rfl | ⟨init, last, rfl⟩
  · exact ⟨[⟨b, b⟩], rfl, h.push fun _ hrange => absurd hrange
      List.not_mem_nil⟩
  · have hordered := h.ordered last List.mem_concat_self
    have hhigh : last.high.toNat < b.toNat :=
      UInt8.lt_iff_toNat_lt.mp
        (hb _ (h.mem List.mem_concat_self hordered (Nat.le_refl _)))
    by_cases hnext : last.high.toNat + 1 = b.toNat
    · refine ⟨init ++ [⟨last.low, b⟩], ?_, h.grow hnext⟩
      simp [extendLast, rangeBytes, hnext]
    · refine ⟨init ++ [last] ++ [⟨b, b⟩], ?_, h.push fun range hrange => ?_⟩
      · simp [extendLast, rangeBytes, hnext]
      · rcases List.mem_append.mp hrange with hrange | hrange
        · have := (List.pairwise_append.mp h.apart).2.2 range hrange last
            List.mem_cons_self
          omega
        · rw [List.mem_singleton.mp hrange]
          omega

/-- A whole run in place: reading on through an ascending list comes to the
ends of the runs of all that has been read. -/
theorem RunsOf.foldl {bs : List UInt8} (h : RunsOf keys ranges)
    (hbs : (keys ++ bs).Pairwise (· < ·)) :
    ∃ ranges', bs.foldl extendLast (rangeBytes ranges) = rangeBytes ranges'
      ∧ RunsOf (keys ++ bs) ranges' := by
  induction bs generalizing keys ranges with
  | nil => exact ⟨ranges, rfl, by rwa [List.append_nil]⟩
  | cons b bs ih =>
      have hless : ∀ k ∈ keys, k < b := fun k hk =>
        (List.pairwise_append.mp hbs).2.2 k hk b List.mem_cons_self
      obtain ⟨ranges', hends, hruns⟩ := h.extend hless
      rw [List.foldl_cons, hends, List.append_cons]
      exact ih hruns (List.append_cons keys b bs ▸ hbs)

/-- Put together in place from the lowest byte up, the ends are those of the
ranges. -/
theorem foldl_extendLast {bs : List UInt8} (hbs : bs.Pairwise (· < ·))
    (hsame : ∀ b, b ∈ bs ↔ b ∈ keys) :
    bs.foldl extendLast [] = rangeBytes (byteRanges keys) := by
  have hnone : RunsOf [] [] := ⟨by simp, List.Pairwise.nil, by simp⟩
  obtain ⟨ranges, hends, hruns⟩ := hnone.foldl hbs
  rw [← (hruns.congr fun b => (hsame b).symm).unique (runsOf_byteRanges keys)]
  exact hends

-- ======================================================== ends in turn

/-- The ends of the ranges of `keys` in turn: in the even places low ends, each
with its high end behind it, the next low end two or more above that, and the
bytes of `keys` just those from a low end to its high end. -/
structure EndsOf (keys ends : List UInt8) : Prop where
  even : ends.length % 2 = 0
  ordered : ∀ i, (h : 2 * i + 1 < ends.length) → ends[2 * i] ≤ ends[2 * i + 1]
  apart : ∀ i, (h : 2 * i + 2 < ends.length) →
    ends[2 * i + 1].toNat + 2 ≤ ends[2 * i + 2].toNat
  held : ∀ b, b ∈ keys ↔ ∃ i, ∃ h : 2 * i + 1 < ends.length, ends[2 * i] ≤ b
    ∧ b ≤ ends[2 * i + 1]

theorem length_rangeBytes :
    (rangeBytes ranges).length = 2 * ranges.length := by
  induction ranges with
  | nil => rfl
  | cons range more ih =>
      show (rangeBytes more).length + 2 = 2 * (more.length + 1)
      omega

/-- The ends of a range stand side by side. -/
theorem getElem?_rangeBytes {i : Nat} (hi : i < ranges.length) :
    (rangeBytes ranges)[2 * i]? = some ranges[i].low
      ∧ (rangeBytes ranges)[2 * i + 1]? = some ranges[i].high := by
  induction ranges generalizing i with
  | nil => exact absurd hi (Nat.not_lt_zero i)
  | cons range more ih =>
      have hends : rangeBytes (range :: more) = range.low :: range.high
        :: rangeBytes more := rfl
      cases i with
      | zero => exact ⟨rfl, rfl⟩
      | succ i =>
          have hdouble : 2 * (i + 1) = 2 * i + 1 + 1 := by omega
          simpa [hends, hdouble] using ih (Nat.lt_of_succ_lt_succ hi)

/-- Runs with their ends in turn. -/
theorem RunsOf.ends (h : RunsOf keys ranges) :
    EndsOf keys (rangeBytes ranges) := by
  have hlow : ∀ i (hi : i < ranges.length) (hplace : 2 * i
      < (rangeBytes ranges).length),
      (rangeBytes ranges)[2 * i] = ranges[i].low :=
    fun i hi hplace => (List.getElem_eq_iff hplace).mpr
      (getElem?_rangeBytes hi).1
  have hhigh : ∀ i (hi : i < ranges.length) (hplace : 2 * i + 1
      < (rangeBytes ranges).length),
      (rangeBytes ranges)[2 * i + 1] = ranges[i].high :=
    fun i hi hplace => (List.getElem_eq_iff hplace).mpr
      (getElem?_rangeBytes hi).2
  have hlength : (rangeBytes ranges).length = 2 * ranges.length :=
    length_rangeBytes
  constructor
  case even => omega
  case ordered =>
    intro i hi
    have hi' : i < ranges.length := by omega
    rw [hlow i hi', hhigh i hi', UInt8.le_iff_toNat_le]
    exact h.ordered _ (List.getElem_mem hi')
  case apart =>
    intro i hi
    have hi' : i + 1 < ranges.length := by omega
    have hnext := hlow (i + 1) hi' hi
    rw [hhigh i (Nat.lt_of_succ_lt hi')]
    show ranges[i].high.toNat + 2 ≤ (rangeBytes ranges)[2 * (i + 1)].toNat
    rw [hnext]
    exact List.pairwise_iff_getElem.mp h.apart i (i + 1) _ hi'
      (Nat.lt_succ_self i)
  case held =>
    intro b
    rw [h.held b]
    constructor
    · rintro ⟨range, hrange, hholds⟩
      obtain ⟨i, hi, rfl⟩ := List.getElem_of_mem hrange
      refine ⟨i, by omega, ?_⟩
      rw [hlow i hi, hhigh i hi, UInt8.le_iff_toNat_le, UInt8.le_iff_toNat_le]
      exact ByteRange.holds_iff.mp hholds
    · rintro ⟨i, hplace, hbounds⟩
      have hi : i < ranges.length := by omega
      rw [hlow i hi, hhigh i hi, UInt8.le_iff_toNat_le, UInt8.le_iff_toNat_le]
        at hbounds
      exact ⟨ranges[i], List.getElem_mem hi, ByteRange.holds_iff.mpr hbounds⟩

/-- Any bytes are folded into ends in turn that are exactly theirs, and into no
more ranges than are needed to hold them; putting these together in place, once
the bytes are in ascending order and none is listed twice, comes to the same
ends. -/
theorem byteRanges_fold (keys : List UInt8) :
    EndsOf keys (rangeBytes (byteRanges keys))
    ∧ (∀ others : List ByteRange,
      (∀ b, b ∈ keys ↔ ∃ range ∈ others, range.holds b = true) →
      (byteRanges keys).length ≤ others.length)
    ∧ ∀ bs : List UInt8, bs.Pairwise (· < ·) → (∀ b, b ∈ bs ↔ b ∈ keys) →
      bs.foldl extendLast [] = rangeBytes (byteRanges keys) := by
  have hruns : RunsOf keys (byteRanges keys) := runsOf_byteRanges keys
  exact ⟨hruns.ends, fun others => hruns.fewest, fun bs => foldl_extendLast⟩

/-- The greatest bytes and the least, out of order and one of them twice. -/
theorem byteRanges_fold_extremes :
    EndsOf [0xfe, 0xff, 0x00, 0xff] [0x00, 0x00, 0xfe, 0xff]
    ∧ 2 ≤ [(⟨0xff, 0xff⟩ : ByteRange), ⟨0xfe, 0xfe⟩, ⟨0x00, 0x00⟩].length
    ∧ [0x00, 0xfe, 0xff].foldl extendLast [] = [0x00, 0x00, 0xfe, 0xff] := by
  obtain ⟨hends, hfewest, hplace⟩ := byteRanges_fold [0xfe, 0xff, 0x00, 0xff]
  have hranges : byteRanges [0xfe, 0xff, 0x00, 0xff]
      = [⟨0x00, 0x00⟩, ⟨0xfe, 0xff⟩] := by
    decide +kernel
  rw [hranges] at hends hfewest hplace
  refine ⟨hends, hfewest _ fun b => ?_, hplace _ (by decide) fun b => ?_⟩
  · simp [ByteRange.holds_iff, ← UInt8.toNat_inj]
    omega
  · simp
    tauto

end Bytewise.Program

/-
Names from a supply are fresh.

The forms of a name differ pairwise, and there is one form more to try
than there are names taken; so the search ends at one that is free, and
the name it falls back on is never used.
-/
import Mathlib.Data.List.Induction
import Mathlib.Data.List.Nodup
import Mathlib.Data.List.Perm.Subperm
import Std.Data.HashSet.Lemmas
import Std.Data.String.ToNat
import Bytewise.NameSupply

namespace Bytewise.NameSupply

variable {used : Std.HashSet String} {base : String}

/-- Different numbers give different forms. -/
theorem numbered_injective (base : String) :
    Function.Injective (numbered base) := by
  intro m n h
  have hlonger : ∀ k : Nat, base ≠ base ++ "_" ++ toString k := by
    intro k heq
    have hlen := congrArg String.length heq
    simp only [String.length_append] at hlen
    have : "_".length = 1 := rfl
    omega
  unfold numbered at h
  split at h
  · split at h
    · omega
    · exact absurd h (hlonger n)
  · split at h
    · exact absurd h.symm (hlonger m)
    · exact Nat.repr_injective ((String.append_right_inj _).mp h)

/-- What follows the stem gets the number. -/
theorem numbered_append (stem base : String) (n : Nat) :
    numbered (stem ++ base) n = stem ++ numbered base n := by
  unfold numbered
  split
  · rfl
  · simp only [String.append_assoc]

/-- What the search finds is the first form that is free. -/
theorem seek_first {bound start : Nat} {name : String}
    (h : seek used base bound start = some name) :
    ∃ n, name = numbered base n ∧ name ∉ used ∧ n < start + bound
      ∧ ∀ m, start ≤ m → m < n → numbered base m ∈ used := by
  induction bound generalizing start with
  | zero => cases h
  | succ bound ih =>
      unfold seek at h
      split at h
      · rename_i htaken
        obtain ⟨n, hname, hfree, hn, hfirst⟩ := ih h
        refine ⟨n, hname, hfree, by omega, fun m hm hmn => ?_⟩
        rcases Nat.eq_or_lt_of_le hm with rfl | hlt
        · exact Std.HashSet.contains_iff_mem.mp htaken
        · exact hfirst m hlt hmn
      · rename_i hfree
        obtain rfl := Option.some.inj h
        exact ⟨start, rfl, fun hmem =>
          hfree (Std.HashSet.contains_iff_mem.mpr hmem), by omega,
          fun m hm hlt => absurd hm (Nat.not_le.mpr hlt)⟩

/-- With more candidates the search finds the same. -/
theorem seek_mono {bound more start : Nat} {name : String}
    (h : seek used base bound start = some name) (hle : bound ≤ more) :
    seek used base more start = some name := by
  induction bound generalizing more start with
  | zero => cases h
  | succ bound ih =>
      obtain ⟨more, rfl⟩ :=
        Nat.exists_eq_succ_of_ne_zero (show more ≠ 0 by omega)
      unfold seek at h ⊢
      split at h
      · rename_i htaken
        rw [if_pos htaken]
        exact ih h (Nat.le_of_succ_le_succ hle)
      · rename_i hfree
        rw [if_neg hfree]
        exact h

/-- If the search finds nothing, all forms it has tried are taken. -/
theorem seek_none {bound start : Nat} (h : seek used base bound start = none)
    {n : Nat} (hn : n < bound) : numbered base (start + n) ∈ used := by
  induction bound generalizing start n with
  | zero => omega
  | succ bound ih =>
      unfold seek at h
      split at h
      · rename_i htaken
        cases n with
        | zero => exact Std.HashSet.contains_iff_mem.mp htaken
        | succ n =>
            have hnext := ih h (Nat.lt_of_succ_lt_succ hn)
            rwa [Nat.add_right_comm] at hnext
      · cases h

/-- There are more forms than names taken, so the search finds one. -/
theorem seek_isSome (used : Std.HashSet String) (base : String) :
    ∃ name, seek used base (used.size + 1) 0 = some name := by
  cases hseek : seek used base (used.size + 1) 0 with
  | some name => exact ⟨name, rfl⟩
  | none =>
      have hsub : (List.range (used.size + 1)).map (numbered base)
          ⊆ used.toList := by
        intro name hname
        obtain ⟨n, hn, rfl⟩ := List.mem_map.mp hname
        have hmem := seek_none hseek (List.mem_range.mp hn)
        rw [Nat.zero_add] at hmem
        exact Std.HashSet.mem_toList.mpr hmem
      have hnodup : ((List.range (used.size + 1)).map (numbered base)).Nodup :=
        List.nodup_range.map (numbered_injective base)
      have hlen := (List.subperm_of_subset hnodup hsub).length_le
      rw [List.length_map, List.length_range, Std.HashSet.length_toList]
        at hlen
      omega

-- ============================================================ one name

/-- The search ends, and does not depend on how far it may go beyond the names
taken. -/
theorem seek_alloc (supply : NameSupply) (name : String) {bound : Nat}
    (hbound : supply.used.size < bound) :
    seek supply.used (supply.base name) bound 0
        = some (supply.alloc name).1 := by
  obtain ⟨fresh, hfresh⟩ := seek_isSome supply.used (supply.base name)
  have halloc : (supply.alloc name).1 = fresh := by
    unfold alloc
    simp only [hfresh, Option.getD_some]
  rw [halloc]
  exact seek_mono hfresh hbound

/-- The name that is handed out is the first form that is free, of one more
than there are names taken. -/
theorem alloc_first (supply : NameSupply) (name : String) :
    ∃ n, (supply.alloc name).1 = numbered (supply.base name) n
      ∧ (supply.alloc name).1 ∉ supply.used ∧ n ≤ supply.used.size
      ∧ ∀ m < n, numbered (supply.base name) m ∈ supply.used := by
  obtain ⟨n, hname, hfree, hn, hfirst⟩ :=
    seek_first (supply.seek_alloc name (Nat.lt_succ_self _))
  exact ⟨n, hname, hfree, by omega, fun m hm => hfirst m (Nat.zero_le m) hm⟩

/-- A name that is handed out was not taken. -/
theorem alloc_notMem (supply : NameSupply) (name : String) :
    (supply.alloc name).1 ∉ supply.used := by
  obtain ⟨_, _, hfree, _⟩ := supply.alloc_first name
  exact hfree

/-- Taken is what was taken before, and the name handed out. -/
theorem mem_alloc {supply : NameSupply} {name other : String} :
    other ∈ (supply.alloc name).2.used ↔ other = (supply.alloc name).1
        ∨ other ∈ supply.used := by
  unfold alloc
  simp only [Std.HashSet.mem_insert, beq_iff_eq]
  exact or_congr eq_comm Iff.rfl

theorem size_alloc (supply : NameSupply) (name : String) :
    (supply.alloc name).2.used.size = supply.used.size + 1 := by
  have hused : (supply.alloc name).2.used
    = supply.used.insert (supply.alloc name).1 := rfl
  rw [hused, Std.HashSet.size_insert, if_neg (supply.alloc_notMem name)]

-- ============================================================ two stems

/-- The supplies have the same names taken, but for their stems. -/
structure Alike (stem stem' : String) (supply supply' : NameSupply) :
    Prop where
  left : supply.stem = stem
  right : supply'.stem = stem'
  taken : ∀ tail, stem ++ tail ∈ supply.used ↔ stem' ++ tail ∈ supply'.used

/-- Nothing is taken of supplies that have handed out nothing. -/
theorem Alike.fresh (stem stem' : String) :
    Alike stem stem' { stem } { stem := stem' } :=
  ⟨rfl, rfl, fun _ => iff_of_false Std.HashSet.not_mem_empty
    Std.HashSet.not_mem_empty⟩

/-- Supplies that are alike hand out names that are, and stay so. -/
theorem Alike.alloc {stem stem' : String} {supply supply' : NameSupply}
    (h : Alike stem stem' supply supply') (name : String) :
    (∃ tail, (supply.alloc name).1 = stem ++ tail
      ∧ (supply'.alloc name).1 = stem' ++ tail)
      ∧ Alike stem stem' (supply.alloc name).2 (supply'.alloc name).2 := by
  obtain ⟨n, hn, hfree, -, hfirst⟩ := supply.alloc_first name
  obtain ⟨n', hn', hfree', -, hfirst'⟩ := supply'.alloc_first name
  have hbase : ∀ m, numbered (supply.base name) m
      = stem ++ numbered (Text.sanitize name) m :=
    fun m => by rw [base, h.left, numbered_append]
  have hbase' : ∀ m, numbered (supply'.base name) m
      = stem' ++ numbered (Text.sanitize name) m :=
    fun m => by rw [base, h.right, numbered_append]
  -- a form is taken of both supplies or of none, so the first free one has one
  -- number
  have hform : ∀ m, numbered (supply.base name) m ∈ supply.used
      ↔ numbered (supply'.base name) m ∈ supply'.used := fun m => by
    rw [hbase, hbase']
    exact h.taken _
  obtain rfl : n = n' := by
    rcases Nat.lt_trichotomy n n' with hlt | heq | hlt
    · exact absurd ((hform n).mpr (hfirst' n hlt)) (hn ▸ hfree)
    · exact heq
    · exact absurd ((hform n').mp (hfirst n' hlt)) (hn' ▸ hfree')
  rw [hbase] at hn
  rw [hbase'] at hn'
  refine ⟨⟨_, hn, hn'⟩, h.left, h.right, fun tail => ?_⟩
  rw [mem_alloc, mem_alloc, hn, hn']
  exact or_congr
    ((String.append_right_inj _).trans (String.append_right_inj _).symm)
    (h.taken tail)

-- ============================================================ all names

/-- The names for `names`, one after the other, and the supply that has them
taken. -/
def handOut (supply : NameSupply) : List String → List String × NameSupply
  | [] => ([], supply)
  | name :: names =>
    let (fresh, next) := supply.alloc name
    let (others, done) := next.handOut names
    (fresh :: others, done)

theorem handOut_cons (supply : NameSupply) (name : String)
    (names : List String) :
    supply.handOut (name :: names)
      = ((supply.alloc name).1 :: ((supply.alloc name).2.handOut names).1,
        ((supply.alloc name).2.handOut names).2) :=
  rfl

theorem handOut_concat (supply : NameSupply) (names : List String)
    (name : String) :
    supply.handOut (names ++ [name])
      = ((supply.handOut names).1 ++ [((supply.handOut names).2.alloc name).1],
        ((supply.handOut names).2.alloc name).2) := by
  induction names generalizing supply with
  | nil => rfl
  | cons first names ih =>
      rw [List.cons_append, handOut_cons, handOut_cons, ih]
      rfl

theorem stem_handOut (supply : NameSupply) (names : List String) :
    (supply.handOut names).2.stem = supply.stem := by
  induction names generalizing supply with
  | nil => rfl
  | cons name names ih =>
      rw [handOut_cons]
      exact ih (supply.alloc name).2

theorem size_handOut (supply : NameSupply) (names : List String) :
    (supply.handOut names).2.used.size = supply.used.size + names.length := by
  induction names generalizing supply with
  | nil => rfl
  | cons name names ih =>
      rw [handOut_cons, ih, size_alloc, List.length_cons]
      omega

/-- Taken is what was taken before, and what has been handed out. -/
theorem mem_handOut {supply : NameSupply} {names : List String}
    {other : String} :
    other ∈ (supply.handOut names).2.used
      ↔ other ∈ (supply.handOut names).1 ∨ other ∈ supply.used := by
  induction names generalizing supply with
  | nil => exact ⟨Or.inr, fun h => h.resolve_left List.not_mem_nil⟩
  | cons name names ih =>
      rw [handOut_cons, ih, mem_alloc, List.mem_cons]
      exact (or_left_comm).trans or_assoc.symm

/-- No form of a name has a character that no identifier may hold. -/
theorem isWordChar_of_numbered {name : String} {n : Nat} {c : Char}
    (hc : c ∈ (numbered (Text.sanitize name) n).toList) :
    Text.isWordChar c = true := by
  have hbase : c ∈ (Text.sanitize name).toList → Text.isWordChar c = true :=
    fun hmem => by
    unfold Text.sanitize at hmem
    rw [String.toList_map] at hmem
    obtain ⟨d, -, rfl⟩ := List.mem_map.mp hmem
    split
    · assumption
    · rfl
  unfold numbered at hc
  split at hc
  · exact hbase hc
  · rw [String.toList_append, String.toList_append] at hc
    rcases List.mem_append.mp hc with hc | hc
    · rcases List.mem_append.mp hc with hc | hc
      · exact hbase hc
      · rw [List.mem_singleton.mp hc]
        rfl
    · have hdigit : c.isDigit = true := by
        rw [Nat.toString_eq_repr, Nat.repr, String.toList_ofList] at hc
        exact Nat.isDigit_of_mem_toDigits (by decide) (by decide) hc
      unfold Text.isWordChar Char.isAlphanum
      rw [hdigit, Bool.or_true, Bool.true_or]

/-- How names are told apart: what is handed out for them under a stem. -/
structure Unique (stem : String) (names given : List String) : Prop where
  length : given.length = names.length
  distinct : given.Nodup
  /-- A name gets the first form that no name before it has, among one more
  than those are. -/
  first : ∀ i name, names[i]? = some name → ∃ n ≤ i,
    given[i]? = some (numbered (stem ++ Text.sanitize name) n)
      ∧ numbered (stem ++ Text.sanitize name) n ∉ given.take i
      ∧ ∀ m < n, numbered (stem ++ Text.sanitize name) m ∈ given.take i
  /-- What follows the stem may stand in an identifier. -/
  words : ∀ fresh ∈ given, ∃ word, fresh = stem ++ word ∧ ∀ c ∈ word.toList,
    Text.isWordChar c = true

/-- What a supply hands out that has handed out nothing. -/
theorem unique_handOut (stem : String) (names : List String) :
    Unique stem names (handOut { stem } names).1 := by
  induction names using List.reverseRecOn with
  | nil =>
      exact ⟨rfl, List.nodup_nil, fun _ _ h => absurd h nofun,
        fun _ h => absurd h List.not_mem_nil⟩
  | append_singleton names name ih =>
      obtain ⟨n, hn, hfree, hsize, hfirst⟩ :=
        (handOut { stem } names).2.alloc_first name
      have hbase : (handOut { stem } names).2.base name = stem ++ Text.sanitize
          name := by
        rw [base, stem_handOut]
      have hused : ∀ other, other ∈ (handOut { stem } names).2.used
          ↔ other ∈ (handOut { stem } names).1 := fun other =>
        mem_handOut.trans (or_iff_left Std.HashSet.not_mem_empty)
      rw [hn, hbase, hused] at hfree
      simp only [hbase, hused] at hfirst
      rw [size_handOut, Std.HashSet.size_empty, Nat.zero_add] at hsize
      rw [handOut_concat, hn, hbase]
      have hlength := ih.length
      generalize (handOut { stem } names).1 = given at *
      refine ⟨by
        simp only [List.length_append, List.length_singleton, hlength], ?_,
        fun i other hi => ?_, fun fresh hfresh => ?_⟩
      · exact List.nodup_append.mpr
            ⟨ih.distinct, List.nodup_singleton _, fun a ha b hb heq =>
          hfree (List.mem_singleton.mp hb ▸ heq ▸ ha)⟩
      · rcases Nat.lt_or_ge i names.length with hlt | hge
        · rw [List.getElem?_append_left hlt] at hi
          have hlt' : i < given.length := hlength ▸ hlt
          rw [List.getElem?_append_left hlt', List.take_append_of_le_length
            (Nat.le_of_lt hlt')]
          exact ih.first i other hi
        · rw [List.getElem?_append_right hge] at hi
          obtain ⟨hzero, rfl⟩ : i - names.length = 0 ∧ name = other := by
            simpa [List.getElem?_singleton] using hi
          obtain rfl : i = given.length := by omega
          rw [List.getElem?_concat_length, List.take_left]
          exact ⟨n, by omega, rfl, hfree, hfirst⟩
      · rcases List.mem_append.mp hfresh with hold | hnew
        · exact ih.words fresh hold
        · rw [List.mem_singleton.mp hnew]
          exact ⟨_, numbered_append _ _ n, fun c hc =>
            isWordChar_of_numbered hc⟩

end Bytewise.NameSupply

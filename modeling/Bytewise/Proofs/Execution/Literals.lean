/-
Comparing a literal is scanning it.

While all keys left go on with one literal, a scan can only read on along
it: the literal is read to its last byte, or the input ends before, or a
byte is not that of the literal and of no key. These are the three ways in
which a comparison comes out (`matchLiteral_scan`).
-/
import Bytewise.Proofs.Execution.Basic
import Bytewise.Proofs.Trie.Scan

namespace Bytewise

namespace TrieEntry

variable {t : Transform} {word literal input : List UInt8} {b : UInt8}
  {entries : List TrieEntry} {i : Nat}

-- ======================================================= along literals

/-- A word in two parts leaves of the entries what the second leaves of the
rest of the first. -/
theorem rest_rest (word more : List UInt8) (entries : List TrieEntry) :
    rest (word ++ more) entries = rest more (rest word entries) := by
  induction more generalizing word entries with
  | nil => rw [List.append_nil, rest_nil]
  | cons b more ih =>
      have hone : rest (b :: more) (rest word entries)
          = rest more (derive b (rest word entries)) := by
        rw [← List.singleton_append, ih, ← List.nil_append [b],
          rest_append, rest_nil]
      rw [List.append_cons, ih, rest_append, hone]

/-- What all keys begin with is taken off all of them. -/
theorem rest_common (h : ∀ e ∈ entries, literal <+: e.key) :
    rest literal entries = entries.map (dropKey literal.length) := by
  unfold rest
  rw [List.filter_eq_self.mpr fun e he => List.isPrefixOf_iff_prefix.mpr
    (h e he)]

/-- All keys that are left go on with a literal, and some are left. -/
structure AllGoOn (entries : List TrieEntry) (word literal : List UInt8) :
    Prop where
  left : rest word entries ≠ []
  begin : ∀ e ∈ rest word entries, literal <+: e.key

/-- Behind some bytes of the literal all keys go on with the others. -/
theorem AllGoOn.behind (h : AllGoOn entries word literal) (i : Nat) :
    AllGoOn entries (word ++ literal.take i) (literal.drop i) := by
  have hbegin : ∀ e ∈ rest word entries, literal.take i <+: e.key :=
    fun e he =>
    (List.take_prefix i literal).trans (h.begin e he)
  have hrest : rest (word ++ literal.take i) entries
      = (rest word entries).map (dropKey (literal.take i).length) := by
    rw [rest_rest, rest_common hbegin]
  refine ⟨?_, fun e he => ?_⟩
  · rw [hrest]
    exact fun hnil => h.left (List.map_eq_nil_iff.mp hnil)
  · rw [hrest] at he
    obtain ⟨o, ho, rfl⟩ := List.mem_map.mp he
    obtain ⟨key, hkey⟩ := h.begin o ho
    refine ⟨key, ?_⟩
    show literal.drop i ++ key = o.key.drop (literal.take i).length
    rw [← hkey, List.length_take]
    rcases Nat.le_total i literal.length with hle | hge
    · rw [Nat.min_eq_left hle, List.drop_append_of_le_length hle]
    · rw [Nat.min_eq_right hge, List.drop_left, List.drop_eq_nil_of_le hge]
      rfl

/-- Inside the literal some key goes on. -/
theorem AllGoOn.goes_on (h : AllGoOn entries word literal)
    (hi : i < literal.length) :
    ∃ e ∈ rest (word ++ literal.take i) entries, e.key ≠ [] := by
  obtain ⟨hsome, hcommon⟩ := h.behind i
  obtain ⟨e, more, hrest⟩ := List.ne_nil_iff_exists_cons.mp hsome
  have he : e ∈ rest (word ++ literal.take i) entries :=
    hrest ▸ List.mem_cons_self
  refine ⟨e, he, fun hnil => ?_⟩
  have hbegins := hcommon e he
  rw [hnil, List.prefix_nil, List.drop_eq_nil_iff] at hbegins
  exact absurd hi (Nat.not_lt.mpr hbegins)

/-- A byte that is not the next one of the literal ends the scan. -/
theorem AllGoOn.scan_miss (h : AllGoOn entries word literal)
    (hi : i < literal.length) (hb : literal[i]? ≠ some (t.apply b)) :
    scan t entries (word ++ literal.take i) (b :: input)
        = .miss (word.length + i) := by
  obtain ⟨_, hcommon⟩ := h.behind i
  rw [List.drop_eq_getElem_cons hi] at hcommon
  have hnone : rest (word ++ literal.take i ++ [t.apply b]) entries = [] := by
    rw [rest_append]
    by_contra hne
    obtain ⟨e, he, key, hkey⟩ := derive_ne_nil.mp hne
    obtain ⟨suffix, hsuffix⟩ := hcommon e he
    rw [hkey, List.cons_append] at hsuffix
    obtain ⟨hsame, _⟩ := List.cons.inj hsuffix
    exact hb (by rw [List.getElem?_eq_getElem hi, hsame])
  have hended : (rest (word ++ literal.take i) entries).find? (·.key.isEmpty)
      = none := by
    refine List.find?_eq_none.mpr fun e he hnil => ?_
    obtain ⟨suffix, hsuffix⟩ := hcommon e he
    rw [List.isEmpty_iff.mp hnil] at hsuffix
    cases hsuffix
  rw [scan_off hnone, hended, List.length_append, List.length_take,
    Nat.min_eq_left (Nat.le_of_lt hi)]

end TrieEntry

-- ========================================================= comparisons

namespace Machine

open TrieEntry

variable {t : Transform} {word literal input : List UInt8}
  {entries : List TrieEntry} {i : Nat}

/-- What a comparison of the input with a literal from its byte `i` on tells of
the scan. -/
def Compared (t : Transform) (entries : List TrieEntry)
    (word literal input : List UInt8)
    (i : Nat) : LiteralStatus × Nat × Nat → Prop
  | (.pause, read, _) =>
      read = input.length
        ∧ scan t entries (word ++ literal.take i) input = .more
  | (.mismatch, read, index) =>
      index = 0 ∧ scan t entries (word ++ literal.take i) input
        = .miss (word.length + i + read)
  | (.complete, read, index) =>
      index = 0 ∧ i + read + 1 = literal.length ∧ ∃ b more,
        input.drop read = b :: more
        ∧ literal.take (i + read) ++ [t.apply b] = literal
        ∧ scan t entries (word ++ literal.take i) input
            = scan t entries (word ++ literal.take (i + read)) (b :: more)

/-- The comparison comes out as the scan does. -/
theorem matchLiteral_scan (t : Transform) (input : List UInt8)
    (h : AllGoOn entries word literal) (hi : i < literal.length) :
    Compared t entries word literal input i
        (matchLiteral t literal input i) := by
  induction input generalizing i with
  | nil => exact ⟨rfl, rfl⟩
  | cons b input ih =>
      unfold matchLiteral
      split
      · rename_i hbyte
        have htake : literal.take i ++ [t.apply b] = literal.take (i + 1) := by
          rw [List.take_add_one, hbyte]
          rfl
        split
        · rename_i hlast
          refine ⟨rfl, hlast, b, input, rfl, ?_, rfl⟩
          rw [Nat.add_zero, htake, hlast, List.take_length]
        · rename_i hmore
          have hnext : i + 1 < literal.length := Nat.lt_of_le_of_ne hi hmore
          have hscan : scan t entries (word ++ literal.take i) (b :: input)
              = scan t entries (word ++ literal.take (i + 1)) input := by
            rw [← htake, ← List.append_assoc]
            refine scan_on ?_
            rw [List.append_assoc, htake]
            exact h.goes_on hnext
          have hrest := ih hnext
          unfold Compared at hrest ⊢
          rw [hscan]
          generalize matchLiteral t literal input (i + 1) = result at hrest
          obtain ⟨status, read, index⟩ := result
          have hcount : i + 1 + read = i + (read + 1) := by omega
          cases status with
          | pause => exact ⟨by rw [hrest.1]; rfl, hrest.2⟩
          | mismatch =>
              refine ⟨hrest.1, ?_⟩
              rw [hrest.2]
              congr 1
              omega
          | complete =>
              obtain ⟨hindex, hlen, c, more, hdrop, hlast, hsame⟩ := hrest
              dsimp only at hlen hlast hsame ⊢
              rw [hcount] at hlen hlast hsame
              exact ⟨hindex, hlen, c, more, hdrop, hlast, hsame⟩
      · rename_i hbyte
        exact ⟨rfl, h.scan_miss hi hbyte⟩

end Machine

end Bytewise

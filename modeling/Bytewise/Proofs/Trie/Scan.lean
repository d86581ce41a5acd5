/-
The plain scan of the keys of a match node.

`scan` is what a match node means, with no trie in it: bytes are put to a
word as long as some key goes on with them. The scan does not depend on
the order of the entries, and one step of it can be read off from what is
left of them behind the word, which is what tries are about.
-/
import Mathlib.Data.List.Nodup
import Bytewise.Transform
import Bytewise.Proofs.Trie.Covers

namespace Bytewise

/-- How a scan comes out. -/
inductive Scan where
  /-- The input has ended, and a key may still go on. -/
  | more
  /-- A key has been read, and leads here; so many bytes are left behind. -/
  | hit (leaf : TrieLeaf) (read : Nat)
  /-- No key has been read; so many bytes are left behind. -/
  | miss (read : Nat)
deriving DecidableEq, Repr

namespace TrieEntry

/-- Reads bytes, transformed, as long as some key begins with the word read. A
key is taken when no other key goes on from it, or when the next byte does not
go on with any key; what it leads to gets to see the bytes of a key that
peeks. -/
def scan (transform : Transform) (entries : List TrieEntry) :
    (word input : List UInt8) → Scan
  | _, [] => .more
  | word, b :: input =>
    let next := word ++ [transform.apply b]
    if entries.any fun e => next.isPrefixOf e.key then
      match entries.find? (·.key == next) with
      | some e =>
        if entries.any fun o => next.isPrefixOf o.key && o.key != next then
          scan transform entries next input
        else .hit e.leaf (if e.noAdvance then word.length else next.length)
      | none => scan transform entries next input
    else
      match entries.find? (·.key == word) with
      | some e => .hit e.leaf word.length
      | none => .miss word.length

variable {t : Transform} {word input : List UInt8} {b : UInt8}
  {entries es : List TrieEntry}

-- =============================================================== order

/-- Among entries with different keys the one with a key is found. -/
theorem find_key_iff (hdistinct : entries.Pairwise fun a b => a.key ≠ b.key)
    {e : TrieEntry} :
    entries.find? (·.key == word) = some e ↔ e ∈ entries ∧ e.key = word := by
  have hnodup : (entries.map (·.key)).Nodup := List.pairwise_map.mpr hdistinct
  constructor
  · intro hfind
    have hkey : (e.key == word) = true :=
      List.find?_some (p := fun e : TrieEntry => e.key == word) hfind
    exact ⟨List.mem_of_find?_eq_some hfind, beq_iff_eq.mp hkey⟩
  · intro hboth
    obtain ⟨he, rfl⟩ := hboth
    cases hfind : entries.find? (·.key == e.key) with
    | none =>
        exact absurd (beq_self_eq_true e.key)
          (List.find?_eq_none.mp hfind e he)
    | some o =>
        have hkey : (o.key == e.key) = true :=
          List.find?_some (p := fun o : TrieEntry => o.key == e.key) hfind
        rw [List.inj_on_of_nodup_map hnodup (List.mem_of_find?_eq_some hfind)
          he (beq_iff_eq.mp hkey)]

/-- The scan does not depend on the order of the entries. -/
theorem scan_perm (h : entries.Perm es)
    (hdistinct : entries.Pairwise fun a b => a.key ≠ b.key)
    (word input : List UInt8) :
    scan t entries word input = scan t es word input := by
  induction input generalizing word with
  | nil => rfl
  | cons b input ih =>
      have hfind : ∀ word, entries.find? (·.key == word)
          = es.find? (·.key == word) := by
        have hdistinct' := h.pairwise hdistinct fun hne => Ne.symm hne
        intro word
        refine Option.ext fun e => ?_
        rw [find_key_iff hdistinct, find_key_iff hdistinct', h.mem_iff]
      unfold scan
      simp only [h.any_eq, hfind, ih]

-- =========================================================== one step

theorem mem_rest {entry : TrieEntry} :
    entry ∈ rest word entries
      ↔ ∃ e ∈ entries, word <+: e.key ∧ e.dropKey word.length = entry := by
  unfold rest
  rw [List.mem_map]
  constructor
  · intro hsome
    obtain ⟨e, he, hdrop⟩ := hsome
    obtain ⟨hmem, hword⟩ := List.mem_filter.mp he
    exact ⟨e, hmem, List.isPrefixOf_iff_prefix.mp hword, hdrop⟩
  · intro hsome
    obtain ⟨e, hmem, hword, hdrop⟩ := hsome
    exact ⟨e, List.mem_filter.mpr ⟨hmem, List.isPrefixOf_iff_prefix.mpr hword⟩,
      hdrop⟩

/-- A key has ended behind a word if it is the word. -/
theorem dropKey_nil_iff {e : TrieEntry} (h : word <+: e.key) :
    (e.dropKey word.length).key = [] ↔ e.key = word := by
  obtain ⟨suffix, hsuffix⟩ := h
  show e.key.drop word.length = [] ↔ e.key = word
  rw [← hsuffix, List.drop_left, List.append_right_eq_self]

/-- Finding a word among the keys is finding an ended key in what is left
behind it. -/
theorem find_rest (word : List UInt8) (entries : List TrieEntry) :
    (rest word entries).find? (·.key.isEmpty)
      = (entries.find? (·.key == word)).map (dropKey word.length) := by
  unfold rest
  rw [List.find?_map, List.find?_filter]
  congr 1
  induction entries with
  | nil => rfl
  | cons e entries ih =>
      have hsame : (decide (word.isPrefixOf e.key = true
          ∧ ((fun x : TrieEntry => x.key.isEmpty) ∘ dropKey word.length) e
            = true)) = (e.key == word) := by
        rw [Bool.eq_iff_iff, decide_eq_true_iff, beq_iff_eq,
          List.isPrefixOf_iff_prefix,
          Function.comp_apply, List.isEmpty_iff]
        constructor
        · intro hboth
          obtain ⟨hword, hnil⟩ := hboth
          exact (dropKey_nil_iff hword).mp hnil
        · intro hkey
          have hword : word <+: e.key := hkey ▸ List.prefix_refl _
          exact ⟨hword, (dropKey_nil_iff hword).mpr hkey⟩
      rw [List.find?_cons, List.find?_cons, hsame, ih]

theorem any_prefix_iff :
    (entries.any fun e => word.isPrefixOf e.key) = true
        ↔ rest word entries ≠ [] := by
  rw [List.any_eq_true, List.ne_nil_iff_exists_cons]
  constructor
  · intro hsome
    obtain ⟨e, he, hword⟩ := hsome
    have hmem : e.dropKey word.length ∈ rest word entries :=
      mem_rest.mpr ⟨e, he, List.isPrefixOf_iff_prefix.mp hword, rfl⟩
    exact List.ne_nil_iff_exists_cons.mp (List.ne_nil_of_mem hmem)
  · intro hsome
    obtain ⟨entry, more, h⟩ := hsome
    obtain ⟨e, he, hword, _⟩ :=
      mem_rest.mp (h ▸ List.mem_cons_self : entry ∈ rest word entries)
    exact ⟨e, he, List.isPrefixOf_iff_prefix.mpr hword⟩

theorem any_longer_iff :
    (entries.any fun o => word.isPrefixOf o.key && o.key != word) = true
      ↔ ∃ e ∈ rest word entries, e.key ≠ [] := by
  rw [List.any_eq_true]
  constructor
  · intro hsome
    obtain ⟨o, ho, h⟩ := hsome
    obtain ⟨hword, hne⟩ := Bool.and_eq_true_iff.mp h
    have hbegins := List.isPrefixOf_iff_prefix.mp hword
    exact ⟨_, mem_rest.mpr ⟨o, ho, hbegins, rfl⟩, fun hnil =>
      bne_iff_ne.mp hne ((dropKey_nil_iff hbegins).mp hnil)⟩
  · intro hsome
    obtain ⟨e, he, hne⟩ := hsome
    obtain ⟨o, ho, hbegins, rfl⟩ := mem_rest.mp he
    refine ⟨o, ho, Bool.and_eq_true_iff.mpr
      ⟨List.isPrefixOf_iff_prefix.mpr hbegins, ?_⟩⟩
    exact bne_iff_ne.mpr fun hkey => hne ((dropKey_nil_iff hbegins).mpr hkey)

/-- As long as a key goes on, the scan does. -/
theorem scan_on (h : ∃ e ∈ rest (word ++ [t.apply b]) entries, e.key ≠ []) :
    scan t entries word (b :: input) = scan t entries (word ++ [t.apply b])
        input := by
  have hany : (entries.any fun e => (word ++ [t.apply b]).isPrefixOf e.key)
      = true := by
    obtain ⟨e, he, _⟩ := h
    exact any_prefix_iff.mpr (List.ne_nil_of_mem he)
  have hlonger := any_longer_iff.mpr h
  conv => lhs; unfold scan
  dsimp only
  rw [if_pos hany]
  split
  · rw [if_pos hlonger]
  · rfl

/-- Where the last key ends, it is taken. -/
theorem scan_ended {entry : TrieEntry}
    (h : rest (word ++ [t.apply b]) entries = [entry])
    (hended : entry.key = []) :
    scan t entries word (b :: input)
      = .hit entry.leaf (if entry.noAdvance then word.length else word.length
          + 1) := by
  have hany : (entries.any fun e => (word ++ [t.apply b]).isPrefixOf e.key)
      = true :=
    any_prefix_iff.mpr (by rw [h]; exact List.cons_ne_nil _ _)
  have hlonger : ¬ (entries.any fun o => (word ++ [t.apply b]).isPrefixOf o.key
      && o.key != word ++ [t.apply b]) = true := by
    rw [any_longer_iff, h]
    intro hsome
    obtain ⟨e, he, hne⟩ := hsome
    rw [List.mem_singleton.mp he] at hne
    exact hne hended
  have hfind := find_rest (word ++ [t.apply b]) entries
  rw [h, List.find?_cons_of_pos (by rw [hended]; rfl)] at hfind
  obtain ⟨e, he, hdrop⟩ := Option.map_eq_some_iff.mp hfind.symm
  have hleaf : e.leaf = entry.leaf := by rw [← hdrop]; rfl
  have hstays : e.noAdvance = entry.noAdvance := by rw [← hdrop]; rfl
  unfold scan
  dsimp only
  rw [if_pos hany, he]
  dsimp only
  rw [if_neg hlonger, hleaf, hstays, List.length_append, List.length_singleton]

/-- Where no key goes on, the key that has ended before is taken, if there is
one. -/
theorem scan_off (h : rest (word ++ [t.apply b]) entries = []) :
    scan t entries word (b :: input)
      = match (rest word entries).find? (·.key.isEmpty) with
        | some entry => .hit entry.leaf word.length
        | none => .miss word.length := by
  have hany : ¬ (entries.any fun e => (word ++ [t.apply b]).isPrefixOf e.key)
      = true := by
    rw [any_prefix_iff, h]
    exact fun hne => hne rfl
  unfold scan
  dsimp only
  rw [if_neg hany, find_rest]
  cases entries.find? (·.key == word) <;> rfl

/-- What is turned into a key that consumes is read as that key, if no key goes
on with the byte behind it. -/
theorem scan_key (hdistinct : entries.Pairwise fun a b => a.key ≠ b.key)
    {e : TrieEntry} (he : e ∈ entries) (hreads : e.noAdvance = false)
    {w more : List UInt8} (hw : word ++ w.map t.apply = e.key)
    (hnext : ∀ o ∈ entries, ¬ e.key ++ [t.apply b] <+: o.key) :
    scan t entries word (w ++ b :: more) = .hit e.leaf e.key.length := by
  induction w generalizing word with
  | nil =>
      obtain rfl : word = e.key := by simpa using hw
      have hoff : rest (e.key ++ [t.apply b]) entries = [] := by
        refine List.eq_nil_iff_forall_not_mem.mpr fun o ho => ?_
        obtain ⟨o', ho', hbegins, -⟩ := mem_rest.mp ho
        exact hnext o' ho' hbegins
      rw [List.nil_append, scan_off hoff, find_rest,
        (find_key_iff hdistinct).mpr ⟨he, rfl⟩]
      rfl
  | cons a w ih =>
      have hw' : word ++ [t.apply a] ++ w.map t.apply = e.key := by
        rw [← hw, List.map_cons, List.append_assoc, List.singleton_append]
      have hleft : e.dropKey (word ++ [t.apply a]).length
          ∈ rest (word ++ [t.apply a]) entries :=
        mem_rest.mpr ⟨e, he, ⟨w.map t.apply, hw'⟩, rfl⟩
      rw [List.cons_append]
      by_cases hmore : ∃ o ∈ rest (word ++ [t.apply a]) entries, o.key ≠ []
      · rw [scan_on hmore, ih hw']
      · -- the key ends here, and no other goes on
        have hkey : e.key = word ++ [t.apply a] := by
          refine (dropKey_nil_iff ⟨w.map t.apply, hw'⟩).mp ?_
          by_contra hne
          exact hmore ⟨_, hleft, hne⟩
        have hany := any_prefix_iff.mpr (List.ne_nil_of_mem hleft)
        have hlonger := mt any_longer_iff.mp hmore
        have hw : w = [] := by simpa [hkey] using hw'
        subst hw
        unfold scan
        dsimp only
        rw [if_pos hany, (find_key_iff hdistinct).mpr ⟨he, hkey⟩]
        dsimp only
        rw [if_neg hlonger, hreads, hkey]
        rfl

end TrieEntry

-- =============================================================== tries

namespace Trie

open TrieEntry

variable {t : Trie} {entries : List TrieEntry}

/-- No leaf. -/
def Deep : Trie → Prop
  | .leaf _ => False
  | _ => True

/-- Below a trie that is no leaf some key goes on. -/
theorem Covers.goes_on (h : Covers t entries) (hdeep : t.Deep) :
    ∃ e ∈ entries, e.key ≠ [] := by
  cases h with
  | leaf => exact hdeep.elim
  | sequence long some common _ _ =>
      obtain ⟨e, more, rfl⟩ := List.ne_nil_iff_exists_cons.mp some
      refine ⟨e, List.mem_cons_self, fun hnil => long ?_⟩
      have hbegins := common e List.mem_cons_self
      rw [hnil] at hbegins
      exact List.prefix_nil.mp hbegins
  | single some bytes _ _ _ _ =>
      obtain ⟨x, more, rfl⟩ := List.ne_nil_iff_exists_cons.mp some
      obtain ⟨e, he, key, hkey⟩ :=
        derive_ne_nil.mp ((bytes x.1).mpr ⟨x, List.mem_cons_self, rfl⟩)
      exact ⟨e, he, by rw [hkey]; exact List.cons_ne_nil _ _⟩

end Trie

end Bytewise

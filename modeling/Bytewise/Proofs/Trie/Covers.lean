/-
What the trie of a node says of the node's keys.

Going down a trie takes bytes off the keys that begin with them, and drops
the others: `rest` is what is left of a list of entries behind a word.
`Covers` ties every level of a trie to the entries left there, without
their order, and `build_covers` has the trie of a node cover its entries.
Sorting is all that makes the levels right: entries with one first byte
stand together, and what the first and the last key of a group begin with,
all of them do.
-/
import Bytewise.Trie
import Bytewise.Proofs.Except

namespace Bytewise

-- ============================================================= entries

namespace TrieEntry

/-- What is left of the entries whose key begins with `b`. -/
def derive (b : UInt8) (entries : List TrieEntry) : List TrieEntry :=
  (entries.filter (startsWith b)).map (dropKey 1)

/-- What is left of the entries whose key begins with `word`. -/
def rest (word : List UInt8) (entries : List TrieEntry) : List TrieEntry :=
  (entries.filter fun entry => word.isPrefixOf entry.key).map
    (dropKey word.length)

/-- Ascending by key, each key once. -/
def Ascending (entries : List TrieEntry) : Prop :=
  entries.Pairwise fun a b => a.key < b.key

/-- In the order of the keys, which may come more than once. -/
def Sorted (entries : List TrieEntry) : Prop :=
  entries.Pairwise fun a b => a.key ≤ b.key

variable {b : UInt8} {word : List UInt8} {entry : TrieEntry}
  {entries : List TrieEntry}

/-- To start with a byte is to have a key that does. -/
theorem startsWith_iff : entry.startsWith b = true
    ↔ ∃ key, entry.key = b :: key := by
  unfold startsWith
  cases entry.key with
  | nil => simp
  | cons a key => simp

/-- A key starts with its first byte only. -/
theorem startsWith_cons {a : UInt8} {key : List UInt8}
    (h : entry.key = a :: key) :
    entry.startsWith b = true ↔ a = b := by
  rw [startsWith_iff, h]
  simp

/-- Nothing is dropped for an empty front. -/
theorem rest_nil (entries : List TrieEntry) : rest [] entries = entries := by
  have hdrop : dropKey ([] : List UInt8).length = id := rfl
  unfold rest
  rw [hdrop, List.map_id]
  exact List.filter_eq_self.mpr fun _ _ => rfl

/-- A longer word leaves of the entries what its last byte leaves of the
rest. -/
theorem rest_append (word : List UInt8) (b : UInt8)
    (entries : List TrieEntry) :
    rest (word ++ [b]) entries = derive b (rest word entries) := by
  unfold rest derive
  rw [List.filter_map, List.filter_filter, List.map_map]
  have hkeep : ∀ entry : TrieEntry, (word ++ [b]).isPrefixOf entry.key
      = (((startsWith b) ∘ dropKey word.length) entry
          && word.isPrefixOf entry.key) := by
    intro entry
    rw [Bool.eq_iff_iff, Bool.and_eq_true, List.isPrefixOf_iff_prefix,
      List.isPrefixOf_iff_prefix,
      Function.comp_apply, startsWith_iff]
    constructor
    · intro hsome
      obtain ⟨key, hkey⟩ := hsome
      refine ⟨⟨key, ?_⟩, b :: key, ?_⟩
      · show entry.key.drop word.length = b :: key
        rw [← hkey, List.append_assoc, List.drop_left]
        rfl
      · rw [← hkey, List.append_assoc]
        rfl
    · intro hsome
      obtain ⟨⟨key, hkey⟩, suffix, hsuffix⟩ := hsome
      have hdrop : entry.key.drop word.length = b :: key := hkey
      rw [← hsuffix, List.drop_left] at hdrop
      refine ⟨key, ?_⟩
      rw [← hsuffix, hdrop, List.append_assoc]
      rfl
  have hdrop : dropKey (word ++ [b]).length = dropKey 1
      ∘ dropKey word.length := by
    funext entry
    unfold dropKey
    simp
  rw [hdrop]
  congr 2
  funext entry
  exact hkeep entry

/-- The derivative by a byte has the entries that start with it, without it. -/
theorem mem_derive : entry ∈ derive b entries
    ↔ ∃ e ∈ entries, (∃ key, e.key = b :: key) ∧ e.dropKey 1 = entry := by
  unfold derive
  rw [List.mem_map]
  constructor
  · intro hsome
    obtain ⟨e, he, hdrop⟩ := hsome
    obtain ⟨hmem, hstarts⟩ := List.mem_filter.mp he
    exact ⟨e, hmem, startsWith_iff.mp hstarts, hdrop⟩
  · intro hsome
    obtain ⟨e, hmem, hstarts, hdrop⟩ := hsome
    exact ⟨e, List.mem_filter.mpr ⟨hmem, startsWith_iff.mpr hstarts⟩, hdrop⟩

/-- It is empty unless some key starts with the byte. -/
theorem derive_ne_nil : derive b entries ≠ [] ↔ ∃ e ∈ entries, ∃ key,
    e.key = b :: key := by
  rw [List.ne_nil_iff_exists_cons]
  constructor
  · intro hsome
    obtain ⟨entry, more, h⟩ := hsome
    obtain ⟨e, he, hkey, _⟩ :=
      mem_derive.mp (h ▸ List.mem_cons_self : entry ∈ derive b entries)
    exact ⟨e, he, hkey⟩
  · intro hsome
    obtain ⟨e, he, hkey⟩ := hsome
    have hmem : e.dropKey 1 ∈ derive b entries :=
      mem_derive.mpr ⟨e, he, hkey, rfl⟩
    exact List.ne_nil_iff_exists_cons.mp (List.ne_nil_of_mem hmem)

/-- An entry whose key has ended is not among those that go on. -/
theorem derive_cons_of_nil (h : entry.key = []) :
    derive b (entry :: entries) = derive b entries := by
  unfold derive
  rw [List.filter_cons_of_neg]
  rw [startsWith_iff, h]
  exact fun ⟨_, hkey⟩ => nomatch hkey

-- =============================================================== order

/-- Between two lists that begin alike every list begins so. -/
theorem prefix_of_between {p a x z : List UInt8} (hax : a ≤ x) (hxz : x ≤ z)
    (ha : p <+: a) (hz : p <+: z) : p <+: x := by
  induction p generalizing a x z with
  | nil => exact List.nil_prefix
  | cons c p ih =>
      obtain ⟨a', rfl⟩ := ha
      obtain ⟨z', rfl⟩ := hz
      cases x with
      | nil => exact absurd (List.nil_lt_cons c (p ++ a')) hax
      | cons d x =>
          rw [List.cons_append, List.cons_le_cons_iff] at hax hxz
          have hcd : c = d := by
            rcases hax with h | ⟨h, _⟩
            · rcases hxz with h' | ⟨h', _⟩
              · exact absurd (UInt8.lt_trans h h') (UInt8.lt_irrefl c)
              · exact h'.symm
            · exact h
          subst hcd
          have hlt : ¬ c < c := UInt8.lt_irrefl c
          obtain ⟨_, hax⟩ := hax.resolve_left hlt
          obtain ⟨_, hxz⟩ := hxz.resolve_left hlt
          exact (List.prefix_cons_inj c).mpr
            (ih hax hxz (List.prefix_append p a') (List.prefix_append p z'))

/-- Taking a common beginning off keeps the order, and putting it back does. -/
theorem drop_lt_drop_iff {p a z : List UInt8} (ha : p <+: a) (hz : p <+: z) :
    a.drop p.length < z.drop p.length ↔ a < z := by
  obtain ⟨a', rfl⟩ := ha
  obtain ⟨z', rfl⟩ := hz
  rw [List.drop_left, List.drop_left]
  induction p with
  | nil => exact Iff.rfl
  | cons c p ih =>
      rw [List.cons_append, List.cons_append, List.cons_lt_cons_iff, ← ih]
      exact ⟨fun h => .inr ⟨rfl, h⟩, fun h =>
        (h.resolve_left (UInt8.lt_irrefl c)).2⟩

/-- Strictly ascending keys are sorted. -/
theorem Ascending.sorted (h : Ascending entries) : Sorted entries :=
  h.imp List.le_of_lt

/-- Keys with a common front still ascend without it. -/
theorem Ascending.dropKey {p : List UInt8} (h : Ascending entries)
    (hp : ∀ e ∈ entries, p <+: e.key) :
    Ascending (entries.map (TrieEntry.dropKey p.length)) := by
  unfold Ascending at h ⊢
  rw [List.pairwise_map]
  exact h.imp_of_mem fun ha hb hlt =>
    (drop_lt_drop_iff (hp _ ha) (hp _ hb)).mpr hlt

/-- They ascend if they do without it. -/
theorem Ascending.of_dropKey {p : List UInt8} (hp : ∀ e ∈ entries, p <+: e.key)
    (h : Ascending (entries.map (TrieEntry.dropKey p.length))) :
    Ascending entries := by
  unfold Ascending at h ⊢
  rw [List.pairwise_map] at h
  exact h.imp_of_mem fun ha hb hlt =>
    (drop_lt_drop_iff (hp _ ha) (hp _ hb)).mp hlt

/-- Sorted keys with a common front are sorted without it. -/
theorem Sorted.dropKey {p : List UInt8} (h : Sorted entries)
    (hp : ∀ e ∈ entries, p <+: e.key) :
    Sorted (entries.map (TrieEntry.dropKey p.length)) := by
  unfold Sorted at h ⊢
  rw [List.pairwise_map]
  refine h.imp_of_mem fun {a b} ha hb hle => ?_
  rcases List.le_iff_lt_or_eq.mp hle with hlt | heq
  · exact List.le_of_lt ((drop_lt_drop_iff (hp a ha) (hp b hb)).mpr hlt)
  · have hsame : (a.dropKey p.length).key = (b.dropKey p.length).key :=
      congrArg (List.drop p.length) heq
    rw [hsame]
    exact List.le_refl _

/-- Where a predicate holds of elements before those it holds of, it holds of a
front part. -/
theorem takeWhile_eq_filter {α : Type} {p : α → Bool} {l : List α}
    (h : l.Pairwise fun x y => p y = true → p x = true) :
    l.takeWhile p = l.filter p ∧ l.dropWhile p = l.filter (!p ·) := by
  induction l with
  | nil => exact ⟨rfl, rfl⟩
  | cons x l ih =>
      obtain ⟨hx, hl⟩ := List.pairwise_cons.mp h
      obtain ⟨htake, hdrop⟩ := ih hl
      cases hpx : p x with
      | true => simp [hpx, htake, hdrop]
      | false =>
          have hnone : ∀ y ∈ l, p y = false := fun y hy =>
            Bool.eq_false_iff.mpr fun hpy => by
              rw [hx y hy hpy] at hpx; cases hpx
          constructor
          · rw [List.takeWhile_cons_of_neg (by simp [hpx]),
              List.filter_cons_of_neg (by simp [hpx])]
            exact (List.filter_eq_nil_iff.mpr fun y hy => by
              simp [hnone y hy]).symm
          · rw [List.dropWhile_cons_of_neg (by simp [hpx]),
              List.filter_cons_of_pos (by simp [hpx])]
            congr 1
            exact (List.filter_eq_self.mpr fun y hy => by
              simp [hnone y hy]).symm

/-- Behind an entry, those with its first byte come before the others. -/
theorem Sorted.group {first : TrieEntry} {key : List UInt8}
    (h : Sorted (first :: entries)) (hkey : first.key = b :: key) :
    entries.takeWhile (startsWith b) = entries.filter (startsWith b)
      ∧ entries.dropWhile (startsWith b)
          = entries.filter (!startsWith b ·) := by
  obtain ⟨hfirst, hrest⟩ := List.pairwise_cons.mp h
  refine takeWhile_eq_filter (hrest.imp_of_mem fun {x y} hx _ hle hy => ?_)
  obtain ⟨more, hmore⟩ := startsWith_iff.mp hy
  have hbetween : [b] <+: x.key :=
    prefix_of_between (hfirst x hx) hle ⟨key, hkey.symm⟩ ⟨more, hmore.symm⟩
  obtain ⟨tail, htail⟩ := hbetween
  exact startsWith_iff.mpr ⟨tail, htail.symm⟩

/-- What is left behind the group of a first byte begins with a later byte. -/
theorem Sorted.lt_of_behind {first e : TrieEntry} {c : UInt8}
    {key : List UInt8} (h : Sorted (first :: entries))
    (hkey : first.key = b :: key) (he : e ∈ entries.dropWhile (startsWith b))
    (hstarts : e.startsWith c = true) : b < c := by
  obtain ⟨k, hk⟩ := startsWith_iff.mp hstarts
  have hle :=
    (List.pairwise_cons.mp h).1 e ((List.dropWhile_sublist _).subset he)
  rw [hkey, hk, List.cons_le_cons_iff] at hle
  refine hle.resolve_right fun ⟨hsame, _⟩ => ?_
  rw [(h.group hkey).2] at he
  have hnot := (List.mem_filter.mp he).2
  rw [hsame, hstarts] at hnot
  cases hnot

/-- All keys of a group start with its byte. -/
theorem begins_of_group {first : TrieEntry} {key : List UInt8}
    (hkey : first.key = b :: key) :
    ∀ e ∈ first :: entries.takeWhile (startsWith b), [b] <+: e.key := by
  intro e he
  have hb : e.startsWith b = true := by
    rcases List.mem_cons.mp he with rfl | he
    · exact startsWith_iff.mpr ⟨key, hkey⟩
    · exact (List.all_eq_true.mp List.all_takeWhile) e he
  obtain ⟨k, hk⟩ := startsWith_iff.mp hb
  exact ⟨k, hk.symm⟩

/-- The group of the first byte, without that byte. -/
theorem Ascending.dropFirst {first : TrieEntry} {key : List UInt8}
    (h : Ascending (first :: entries)) (hkey : first.key = b :: key) :
    Ascending ((first :: entries.takeWhile (startsWith b)).map
        (TrieEntry.dropKey 1)) := by
  have hgroup : Ascending (first :: entries.takeWhile (startsWith b)) :=
    h.sublist ((List.takeWhile_sublist _).cons_cons first)
  exact hgroup.dropKey (begins_of_group hkey)

/-- A group is sorted without its first byte. -/
theorem Sorted.dropFirst {first : TrieEntry} {key : List UInt8}
    (h : Sorted (first :: entries)) (hkey : first.key = b :: key) :
    Sorted ((first :: entries.takeWhile (startsWith b)).map
        (TrieEntry.dropKey 1)) := by
  have hgroup : Sorted (first :: entries.takeWhile (startsWith b)) :=
    h.sublist ((List.takeWhile_sublist _).cons_cons first)
  exact hgroup.dropKey (begins_of_group hkey)

-- ============================================================== common

variable {first : TrieEntry}

/-- The common front of two keys is a front of the second. -/
theorem commonLength_prefix (as bs : List UInt8) :
    as.take (Trie.commonLength as bs) <+: bs := by
  fun_induction Trie.commonLength as bs with
  | case1 a as b bs heq ih =>
      rw [List.take_succ_cons, beq_iff_eq.mp heq]
      exact (List.prefix_cons_inj b).mpr ih
  | case2 => exact List.nil_prefix
  | case3 => exact List.nil_prefix

/-- The bytes that all keys of a group begin with, as many as are taken off. -/
theorem length_common (first : TrieEntry) (entries : List TrieEntry) :
    (first.key.take (Trie.groupCommon first entries)).length
        = Trie.groupCommon first entries := by
  rw [List.length_take]
  exact Nat.min_eq_left (Trie.commonLength_le _ _)

/-- What the first and the last key of a sorted group begin with, all its keys
begin with. -/
theorem groupCommon_begins (h : Sorted (first :: entries)) :
    ∀ e ∈ first :: entries, first.key.take (Trie.groupCommon first entries)
        <+: e.key := by
  have hfirst := List.take_prefix (Trie.groupCommon first entries) first.key
  have hlast : first.key.take (Trie.groupCommon first entries)
      <+: ((entries.getLast?.getD first).key) := commonLength_prefix _ _
  obtain ⟨hle, hrest⟩ := List.pairwise_cons.mp h
  intro e he
  rcases List.mem_cons.mp he with rfl | he
  · exact hfirst
  · cases hend : entries.getLast? with
    | none =>
        rw [List.getLast?_eq_none_iff.mp hend] at he
        cases he
    | some last =>
        rw [hend] at hlast
        refine prefix_of_between (hle e he) ?_ hfirst hlast
        -- the last entry of the group is this one, or comes after it
        obtain ⟨front, rfl⟩ := List.getLast?_eq_some_iff.mp hend
        rcases List.mem_append.mp he with he | he
        · exact (List.pairwise_append.mp hrest).2.2 e he last
            (List.mem_singleton.mpr rfl)
        · rw [List.mem_singleton.mp he]
          exact List.le_refl _

/-- Entries that ascend do so without their common front. -/
theorem Ascending.dropCommon (h : Ascending (first :: entries)) :
    Ascending ((first :: entries).map
        (TrieEntry.dropKey (Trie.groupCommon first entries))) := by
  have hbelow := h.dropKey (groupCommon_begins h.sorted)
  rwa [length_common] at hbelow

/-- Sorted entries are so without their common front. -/
theorem Sorted.dropCommon (h : Sorted (first :: entries)) :
    Sorted ((first :: entries).map
        (TrieEntry.dropKey (Trie.groupCommon first entries))) := by
  have hbelow := h.dropKey (groupCommon_begins h)
  rwa [length_common] at hbelow

end TrieEntry

-- ============================================================ covering

namespace Trie

open TrieEntry

/-- The trie decides among the entries, whatever their order. -/
inductive Covers : Trie → List TrieEntry → Prop where
  | leaf {entry : TrieEntry}
      (ended : entry.key = []) : Covers (.leaf entry.leaf) [entry]
  | sequence {literal : List UInt8} {child : Trie} {entries : List TrieEntry}
      (long : literal ≠ []) (some : entries ≠ [])
      (common : ∀ e ∈ entries, literal <+: e.key)
      (consumes : ∀ e ∈ entries, e.noAdvance = false)
      (below : Covers child (entries.map (dropKey literal.length))) :
      Covers (.sequence literal child) entries
  | single {bs : List (UInt8 × Bool × Trie)} {fallback : Option TrieLeaf}
      {entries : List TrieEntry} (some : bs ≠ [])
      (bytes : ∀ b, derive b entries ≠ [] ↔ ∃ x ∈ bs, x.1 = b)
      (alike : ∀ x ∈ bs, ∀ e ∈ derive x.1 entries, e.noAdvance = x.2.1)
      (below : ∀ x ∈ bs, Covers x.2.2 (derive x.1 entries))
      (alone : ∀ e ∈ entries, ∀ o ∈ entries, e.key = [] → o.key = [] → e = o)
      (ended : fallback = (entries.find? (·.key.isEmpty)).map TrieEntry.leaf) :
      Covers (.single bs fallback) entries

variable {name : String} {path : List (List UInt8)} {entries : List TrieEntry}

/-- Where nothing peeks, all entries consume. -/
theorem consumes_of_none {first : TrieEntry}
    (h : ¬ (first.noAdvance || entries.any (·.noAdvance)) = true) :
    ∀ e ∈ first :: entries, e.noAdvance = false := by
  rw [Bool.not_eq_true, Bool.or_eq_false_iff, List.any_eq_false] at h
  intro e he
  rcases List.mem_cons.mp he with rfl | he
  · exact h.1
  · exact Bool.eq_false_iff.mpr (h.2 e he)

/-- Entries that are not mixed all do as the first one does. -/
theorem alike_of_not_mixed {first : TrieEntry}
    (h : isMixed first entries = false) :
    ∀ e ∈ first :: entries, e.noAdvance = first.noAdvance := by
  intro e he
  rcases List.mem_cons.mp he with rfl | he
  · rfl
  · have hsame := List.any_eq_false.mp h e he
    rwa [bne_iff_ne, ne_eq, Decidable.not_not] at hsame

/-- What the branches of a level must do: one for every first byte, which
covers what is left behind it. -/
structure BranchesCover (bs : List (UInt8 × Bool × Trie))
    (entries : List TrieEntry) : Prop where
  bytes : ∀ b, derive b entries ≠ [] ↔ ∃ x ∈ bs, x.1 = b
  alike : ∀ x ∈ bs, ∀ e ∈ derive x.1 entries, e.noAdvance = x.2.1
  below : ∀ x ∈ bs, Covers x.2.2 (derive x.1 entries)

theorem branchesCover_nil : BranchesCover [] [] where
  bytes b := by
    refine ⟨fun h => absurd rfl h, ?_⟩
    intro hsome
    obtain ⟨x, hx, _⟩ := hsome
    cases hx
  alike x hx := nomatch hx
  below x hx := nomatch hx

/-- The first group and the others, each covered, are covered together. -/
theorem BranchesCover.cons {first : TrieEntry} {b : UInt8} {key : List UInt8}
    {child : Trie} {more : List (UInt8 × Bool × Trie)}
    (h : Ascending (first :: entries)) (hkey : first.key = b :: key)
    (halike : isMixed first (entries.takeWhile (startsWith b)) = false)
    (hchild : Covers child
      ((first :: entries.takeWhile (startsWith b)).map (dropKey 1)))
    (hmore : BranchesCover more (entries.dropWhile (startsWith b))) :
    BranchesCover ((b, first.noAdvance, child) :: more)
        (first :: entries) := by
  obtain ⟨htake, hdrop⟩ := h.sorted.group hkey
  rw [htake] at halike hchild
  rw [hdrop] at hmore
  have hstarts : first.startsWith b = true := startsWith_iff.mpr ⟨key, hkey⟩
  have hgroup : derive b (first :: entries)
      = (first :: entries.filter (startsWith b)).map (dropKey 1) := by
    unfold derive
    rw [List.filter_cons_of_pos hstarts]
  have hothers : ∀ c, c ≠ b →
      derive c (first :: entries)
          = derive c (entries.filter (!startsWith b ·)) := by
    intro c hc
    unfold derive
    rw [List.filter_cons_of_neg
      (by rw [startsWith_cons hkey]; exact Ne.symm hc),
      List.filter_filter]
    congr 2
    funext e
    cases hec : e.startsWith c with
    | false => rfl
    | true =>
        obtain ⟨k, hk⟩ := startsWith_iff.mp hec
        rw [Bool.eq_false_iff.mpr ((not_congr (startsWith_cons hk)).mpr hc)]
        rfl
  have hbytes : ∀ x ∈ more, x.1 ≠ b := by
    intro x hx hxb
    obtain ⟨e, he, k, hk⟩ :=
      derive_ne_nil.mp ((hmore.bytes x.1).mpr ⟨x, hx, rfl⟩)
    have hnot := (List.mem_filter.mp he).2
    rw [startsWith_iff.mpr ⟨k, hxb ▸ hk⟩] at hnot
    cases hnot
  exact {
    bytes := fun c => by
      by_cases hc : c = b
      · subst hc
        refine ⟨fun _ => ⟨_, List.mem_cons_self, rfl⟩, fun _ => ?_⟩
        rw [hgroup]
        exact List.cons_ne_nil _ _
      · rw [hothers c hc, hmore.bytes]
        constructor
        · intro hsome
          obtain ⟨x, hx, rfl⟩ := hsome
          exact ⟨x, List.mem_cons_of_mem _ hx, rfl⟩
        · intro hsome
          obtain ⟨x, hx, rfl⟩ := hsome
          rcases List.mem_cons.mp hx with rfl | hx
          · exact absurd rfl hc
          · exact ⟨x, hx, rfl⟩
    alike := fun x hx e he => by
      rcases List.mem_cons.mp hx with rfl | hx
      · rw [hgroup] at he
        obtain ⟨o, ho, rfl⟩ := List.mem_map.mp he
        exact alike_of_not_mixed halike o ho
      · rw [hothers x.1 (hbytes x hx)] at he
        exact hmore.alike x hx e he
    below := fun x hx => by
      rcases List.mem_cons.mp hx with rfl | hx
      · rw [hgroup]
        exact hchild
      · rw [hothers x.1 (hbytes x hx)]
        exact hmore.below x hx }

-- ------------------------------------------------------------ building

/-- Behind an entry no key has ended. -/
theorem keys_ne_nil {first : TrieEntry} (h : Ascending (first :: entries)) :
    ∀ e ∈ entries, e.key ≠ [] := by
  intro e he hnil
  have hlt := (List.pairwise_cons.mp h).1 e he
  rw [hnil] at hlt
  exact List.not_lt_nil _ hlt

/-- A key that goes on has a branch. -/
private theorem branches_ne_nil {bs : List (UInt8 × Bool × Trie)}
    {first : TrieEntry} (h : BranchesCover bs (first :: entries))
    (hkey : first.key ≠ []) :
    bs ≠ [] := by
  obtain ⟨b, key, hkey⟩ := List.ne_nil_iff_exists_cons.mp hkey
  obtain ⟨x, hx, _⟩ :=
    (h.bytes b).mp (derive_ne_nil.mpr ⟨first, List.mem_cons_self, key, hkey⟩)
  exact List.ne_nil_of_mem hx

/-- A level whose keys go on takes what they have in common, or branches. -/
theorem level_of_key {first : TrieEntry} (hkey : ¬ first.key.isEmpty = true) :
    level name path (first :: entries)
      = if 1 < groupCommon first entries then
          if first.noAdvance || entries.any (·.noAdvance) then
            .error (.peekMatchConflict name path)
          else do
            let child ← level name
              (path ++ [first.key.take (groupCommon first entries)])
              ((first :: entries).map (dropKey (groupCommon first entries)))
            return .sequence (first.key.take (groupCommon first entries)) child
        else do
          return .single (← branches name path (first :: entries)) none := by
  rw [level.eq_def]
  dsimp only
  rw [if_neg hkey]
  split <;> rfl

/-- Where the only key ends there are no branches. -/
theorem branches_of_nil {first : TrieEntry} (hkey : first.key = []) :
    branches name path (first :: entries) = .ok [] := by
  rw [branches.eq_def]
  dsimp only
  split
  · rfl
  · rename_i b key hcons
    rw [hkey] at hcons
    cases hcons

/-- A first key that goes on makes a branch of its group, before those of the
rest. -/
theorem branches_of_key {first : TrieEntry} {b : UInt8} {key : List UInt8}
    (hkey : first.key = b :: key) :
    branches name path (first :: entries)
      = if isMixed first (entries.takeWhile (startsWith b)) then
          .error (.peekMatchConflict name (path ++ [[b]]))
        else do
          let child ← level name (path ++ [[b]])
            ((first :: entries.takeWhile (startsWith b)).map (dropKey 1))
          let more ← branches name path (entries.dropWhile (startsWith b))
          return (b, first.noAdvance, child) :: more := by
  rw [branches.eq_def]
  dsimp only
  split
  · rename_i hnil
    rw [hkey] at hnil
    cases hnil
  · rename_i b' key' hkey'
    rw [hkey] at hkey'
    obtain ⟨rfl, rfl⟩ := List.cons.inj hkey'
    rfl

/-- `P` holds of every trie that a level answers, and `Q` of every list of
branches: each way in which an answer comes about keeps them. -/
structure Answered (P : List TrieEntry → Trie → Prop)
    (Q : List TrieEntry → List (UInt8 × Bool × Trie) → Prop) : Prop where
  empty : P [] (.single [] none)
  leaf {first : TrieEntry} (ended : first.key = []) : P [first]
    (.leaf first.leaf)
  fallback {first second : TrieEntry} {entries : List TrieEntry}
    {bs : List (UInt8 × Bool × Trie)} (ended : first.key = [])
    (goes : second.key ≠ [])
    (branches : Q (second :: entries) bs) :
    P (first :: second :: entries) (.single bs (some first.leaf))
  sequence {first : TrieEntry} {entries : List TrieEntry} {child : Trie}
    (goes : first.key ≠ [])
    (deep : 1 < groupCommon first entries)
      (consumes : ∀ e ∈ first :: entries, e.noAdvance = false)
    (below : P ((first :: entries).map (dropKey (groupCommon first entries)))
      child) :
    P (first :: entries)
      (.sequence (first.key.take (groupCommon first entries)) child)
  single {first : TrieEntry} {entries : List TrieEntry}
    {bs : List (UInt8 × Bool × Trie)}
    (goes : first.key ≠ []) (branches : Q (first :: entries) bs) :
    P (first :: entries) (.single bs none)
  nil : Q [] []
  ended {first : TrieEntry} {entries : List TrieEntry}
    (ended : first.key = []) :
    Q (first :: entries) []
  branch {first : TrieEntry} {entries : List TrieEntry} {b : UInt8}
    {key : List UInt8}
    {child : Trie} {more : List (UInt8 × Bool × Trie)}
      (key : first.key = b :: key)
    (alike : isMixed first (entries.takeWhile (startsWith b)) = false)
    (below : P ((first :: entries.takeWhile (startsWith b)).map (dropKey 1))
      child)
    (behind : Q (entries.dropWhile (startsWith b)) more) :
    Q (first :: entries) ((b, first.noAdvance, child) :: more)

/-- What holds of all answers, however they come about, holds of the trie of a
level. -/
theorem Answered.level {P : List TrieEntry → Trie → Prop}
    {Q : List TrieEntry → List (UInt8 × Bool × Trie) → Prop} (h : Answered P Q)
    {t : Trie} (hok : level name path entries = .ok t) : P entries t := by
  refine level.induct (fun path entries => ∀ t, Trie.level name path entries
    = .ok t → P entries t)
    (fun path entries => ∀ bs, branches name path entries = .ok bs →
      Q entries bs)
    ?_ ?_ ?_ ?_ ?_ ?_ ?_ ?_ ?_ ?_ ?_ ?_ path entries t hok
  · intro path t hok
    rw [Trie.level] at hok
    exact Except.ok.inj hok ▸ h.empty
  · -- a key that ends here, alone
    intro path first hended t hok
    rw [Trie.level, if_pos hended] at hok
    exact Except.ok.inj hok ▸ h.leaf (List.isEmpty_iff.mp hended)
  · intro path first hended second entries hpath t hok
    rw [Trie.level, if_pos hended, if_pos hpath] at hok
    cases hok
  · intro path first hended second entries hpath hsecond t hok
    rw [Trie.level, if_pos hended, if_neg hpath, if_pos hsecond] at hok
    cases hok
  · intro path first hended second entries hpath hsecond ih t hok
    rw [Trie.level, if_pos hended, if_neg hpath, if_neg hsecond] at hok
    obtain ⟨bs, hbs, ht⟩ := ok_of_bind hok
    exact Except.ok.inj ht ▸ h.fallback (List.isEmpty_iff.mp hended)
      (fun hnil => hsecond (List.isEmpty_iff.mpr hnil)) (ih bs hbs)
  · intro path first entries hkey hdeep hpeeks t hok
    rw [level_of_key hkey, if_pos hdeep, if_pos hpeeks] at hok
    cases hok
  · intro path first entries hkey common hdeep hconsumes literal ih t hok
    rw [level_of_key hkey, if_pos hdeep, if_neg hconsumes] at hok
    obtain ⟨child, hchild, ht⟩ := ok_of_bind hok
    exact Except.ok.inj ht ▸ h.sequence
      (fun hnil => hkey (List.isEmpty_iff.mpr hnil)) hdeep
      (consumes_of_none hconsumes) (ih child hchild)
  · intro path first entries hkey hflat ih t hok
    rw [level_of_key hkey, if_neg hflat] at hok
    obtain ⟨bs, hbs, ht⟩ := ok_of_bind hok
    exact Except.ok.inj ht
      ▸ h.single (fun hnil => hkey (List.isEmpty_iff.mpr hnil)) (ih bs hbs)
  · intro path bs hok
    rw [branches] at hok
    exact Except.ok.inj hok ▸ h.nil
  · intro path first entries hnil bs hok
    rw [branches_of_nil hnil] at hok
    exact Except.ok.inj hok ▸ h.ended hnil
  · intro path first entries b key hkey group hmixed bs hok
    rw [branches_of_key hkey, if_pos hmixed] at hok
    cases hok
  · intro path first entries b key hkey group others path' halike ihchild
      ihmore bs hok
    rw [branches_of_key hkey, if_neg halike] at hok
    obtain ⟨child, hchild, hrest⟩ := ok_of_bind hok
    obtain ⟨more, hmore, hbs⟩ := ok_of_bind hrest
    exact Except.ok.inj hbs ▸ h.branch hkey (Bool.eq_false_iff.mpr halike)
      (ihchild child hchild)
      (ihmore more hmore)

/-- The cause is that the keys of a node have no trie. -/
def OfKeys : Cause → Prop
  | .emptyRootEntry _ | .duplicateEntry .. | .peekMatchConflict .. => True
  | _ => False

theorem level_fails (path : List (List UInt8)) (entries : List TrieEntry) :
    FailsWith OfKeys (level name path entries) := by
  have herror : ∀ {α : Type} {cause : Cause}, OfKeys cause →
      FailsWith OfKeys (.error cause : Except Cause α) :=
    fun h _ heq => Except.error.inj heq ▸ h
  refine level.induct
    (fun path entries => FailsWith OfKeys (level name path entries))
    (fun path entries => FailsWith OfKeys (branches name path entries))
    ?_ ?_ ?_ ?_ ?_ ?_ ?_ ?_ ?_ ?_ ?_ ?_ path entries
  · intro path
    rw [level]
    exact .ok _
  · intro path entry hended
    rw [level, if_pos hended]
    exact .ok _
  · intro path first hended second entries hpath
    rw [level, if_pos hended, if_pos hpath]
    exact herror trivial
  · intro path first hended second entries hpath hsecond
    rw [level, if_pos hended, if_neg hpath, if_pos hsecond]
    exact herror trivial
  · intro path first hended second entries hpath hsecond ih
    rw [level, if_pos hended, if_neg hpath, if_neg hsecond]
    exact ih.bind fun _ _ => .ok _
  · intro path first entries hkey hdeep hpeek
    rw [level_of_key hkey, if_pos hdeep, if_pos hpeek]
    exact herror trivial
  · intro path first entries hkey common hdeep hpeek literal ih
    rw [level_of_key hkey, if_pos hdeep, if_neg hpeek]
    exact ih.bind fun _ _ => .ok _
  · intro path first entries hkey hflat ih
    rw [level_of_key hkey, if_neg hflat]
    exact ih.bind fun _ _ => .ok _
  · intro path
    rw [branches]
    exact .ok _
  · intro path first entries hnil
    rw [branches_of_nil hnil]
    exact .ok _
  · intro path first entries b key hkey group hmixed
    rw [branches_of_key hkey, if_pos hmixed]
    exact herror trivial
  · intro path first entries b key hkey group others path' halike
      ihchild ihmore
    rw [branches_of_key hkey, if_neg halike]
    exact ihchild.bind fun _ _ => ihmore.bind fun _ _ => .ok _

/-- Building a trie can only fail for the keys. -/
theorem build_fails (entries : List TrieEntry) :
    FailsWith OfKeys (build name entries) := by
  unfold build
  split
  · exact .ok _
  · rw [map_eq_pure_bind]
    exact (level_fails [] _).bind fun _ _ => .ok _

/-- A level whose first key has ended, with others that go on. -/
private theorem covers_fallback {first second : TrieEntry}
    {bs : List (UInt8 × Bool × Trie)} (hended : first.key = [])
    (hsecond : second.key ≠ []) (h : Ascending (first :: second :: entries))
    (hcover : BranchesCover bs (second :: entries)) :
    Covers (.single bs (some first.leaf)) (first :: second :: entries) := by
  refine .single (branches_ne_nil hcover hsecond)
    (fun b => ?_) (fun x hx e he => ?_) (fun x hx => ?_)
    (fun e he o ho hekey hokey => ?_) ?_
  · rw [derive_cons_of_nil hended]
    exact hcover.bytes b
  · rw [derive_cons_of_nil hended] at he
    exact hcover.alike x hx e he
  · rw [derive_cons_of_nil hended]
    exact hcover.below x hx
  · have honly : ∀ e ∈ first :: second :: entries, e.key = [] → e = first := by
      intro e he hkey
      exact (List.mem_cons.mp he).resolve_right fun he =>
        keys_ne_nil h e he hkey
    rw [honly e he hekey, honly o ho hokey]
  · have hfind : (first :: second :: entries).find? (·.key.isEmpty)
        = some first :=
      List.find?_cons_of_pos (List.isEmpty_iff.mpr hended)
    rw [hfind]
    rfl

/-- A level that branches on the first byte. -/
private theorem covers_single {first : TrieEntry}
    {bs : List (UInt8 × Bool × Trie)}
    (hkeys : ∀ e ∈ first :: entries, e.key ≠ [])
    (hcover : BranchesCover bs (first :: entries)) :
    Covers (.single bs none) (first :: entries) := by
  refine .single (branches_ne_nil hcover (hkeys first List.mem_cons_self))
    hcover.bytes
    hcover.alike hcover.below (fun e he _ _ hkey => absurd hkey (hkeys e he))
      ?_
  rw [List.find?_eq_none.mpr fun e he hended =>
    hkeys e he (List.isEmpty_iff.mp hended)]
  rfl

/-- What sorted entries are built into covers them. -/
private theorem answered_covers : Answered
    (fun entries t => Ascending entries → entries ≠ [] → Covers t entries)
    (fun entries bs => Ascending entries → (∀ e ∈ entries, e.key ≠ []) →
      BranchesCover bs entries) where
  empty _ hne := absurd rfl hne
  leaf ended _ _ := .leaf ended
  fallback ended goes branches h _ :=
    covers_fallback ended goes h
      (branches (List.pairwise_cons.mp h).2 (keys_ne_nil h))
  sequence {first entries _} goes deep consumes below h _ := by
    have hlen := length_common first entries
    refine .sequence (fun hnil => ?_) (List.cons_ne_nil _ _)
      (groupCommon_begins h.sorted)
      consumes ?_
    · rw [hnil] at hlen
      rw [← hlen] at deep
      cases deep
    · rw [hlen]
      exact below h.dropCommon (List.cons_ne_nil _ _)
  single {first entries _} goes branches h _ := by
    have hkeys : ∀ e ∈ first :: entries, e.key ≠ [] := by
      intro e he
      rcases List.mem_cons.mp he with rfl | he
      · exact goes
      · exact keys_ne_nil h e he
    exact covers_single hkeys (branches h hkeys)
  nil _ _ := branchesCover_nil
  ended ended _ hkeys := absurd ended (hkeys _ List.mem_cons_self)
  branch {_ entries b _ _ _} key alike below behind h hkeys := by
    have hbehind : (entries.dropWhile (startsWith b)).Sublist entries :=
      List.dropWhile_sublist _
    refine BranchesCover.cons h key alike
      (below (h.dropFirst key) (List.cons_ne_nil _ _))
      (behind ((List.pairwise_cons.mp h).2.sublist hbehind) fun e he =>
        hkeys e ?_)
    exact List.mem_cons_of_mem _ (hbehind.subset he)

/-- Levels of sorted entries cover them. -/
theorem level_covers (h : Ascending entries) (hne : entries ≠ []) {t : Trie}
    (hok : level name path entries = .ok t) : Covers t entries :=
  answered_covers.level hok h hne

theorem sorted_mergeSort (entries : List TrieEntry) :
    Sorted (entries.mergeSort keyLE) := by
  have htrans : ∀ a b c, keyLE a b = true → keyLE b c = true →
      keyLE a c = true :=
    fun a b c hab hbc =>
      decide_eq_true
        (List.le_trans (of_decide_eq_true hab) (of_decide_eq_true hbc))
  have htotal : ∀ a b, (keyLE a b || keyLE b a) = true := by
    intro a b
    rw [Bool.or_eq_true]
    exact (List.le_total a.key b.key).imp decide_eq_true decide_eq_true
  exact (List.pairwise_mergeSort htrans htotal entries).imp of_decide_eq_true

/-- Entries with different keys are sorted into ascending order. -/
theorem ascending_mergeSort
    (hdistinct : entries.Pairwise fun a b => a.key ≠ b.key) :
    Ascending (entries.mergeSort keyLE) := by
  have hdistinct' : (entries.mergeSort keyLE).Pairwise fun a b => a.key
      ≠ b.key :=
    (List.mergeSort_perm entries keyLE).symm.pairwise hdistinct fun h =>
      Ne.symm h
  refine ((sorted_mergeSort entries).and hdistinct').imp fun ⟨hle, hne⟩ => ?_
  exact (List.le_iff_lt_or_eq.mp hle).resolve_right hne

/-- Any entries at all are built as a level of the sorted ones. -/
theorem build_of_ne_nil (hne : entries ≠ []) :
    build name entries = some <$> level name [] (entries.mergeSort keyLE) := by
  unfold build
  split
  · exact absurd rfl hne
  · rfl

/-- There is no trie just where there are no entries. -/
theorem build_eq_none_iff : build name entries = .ok none ↔ entries = [] := by
  constructor
  · intro hnone
    by_contra hne
    rw [build_of_ne_nil hne] at hnone
    obtain ⟨_, _, hsome⟩ := ok_of_map hnone
    cases hsome
  · rintro rfl
    rfl

/-- What is built is the level of the sorted entries. -/
theorem level_of_build {t : Trie} (hok : build name entries = .ok (some t)) :
    entries ≠ [] ∧ level name [] (entries.mergeSort keyLE) = .ok t := by
  have hne : entries ≠ [] := by
    rintro rfl
    cases hok
  rw [build_of_ne_nil hne] at hok
  obtain ⟨built, hlevel, hsome⟩ := ok_of_map hok
  obtain rfl := Option.some.inj hsome
  exact ⟨hne, hlevel⟩

/-- The trie of a node covers the node's entries, in order. -/
theorem build_covers (hdistinct : entries.Pairwise fun a b => a.key ≠ b.key)
    {t : Trie} (hok : build name entries = .ok (some t)) :
    Covers t (entries.mergeSort keyLE) := by
  obtain ⟨hne, hlevel⟩ := level_of_build hok
  refine level_covers (ascending_mergeSort hdistinct)
    (fun hnil => hne ?_) hlevel
  exact List.nil_perm.mp (hnil ▸ List.mergeSort_perm entries keyLE)

end Trie

end Bytewise

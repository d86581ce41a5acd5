/-
The leaves of a trie are the entries it was built from.

Every leaf stands for an entry: the bytes on the way to it are the key,
and a way of one byte says whether that byte stays unread. Read from left
to right, the leaves are the sorted entries (`leaves_of_build`). A level
that is built had no key twice, and no key that goes on from a byte that
stays unread, so building is refused exactly if two entries clash
(`refused_iff`).
-/
import Bytewise.Proofs.Trie.Formed

namespace Bytewise

-- ============================================================= entries

/-- The entry of a key that ends at the leaf. -/
def TrieLeaf.entry (leaf : TrieLeaf) : TrieEntry :=
  { key := [], target := leaf.target, value := leaf.value }

namespace TrieEntry

variable {b : UInt8} {entries others : List TrieEntry}

/-- The entry with the bytes of `word` put before its key; one byte alone may
stay unread. -/
def behind (word : List UInt8) (noAdvance : Bool) (entry : TrieEntry) :
    TrieEntry :=
  { entry with key := word ++ entry.key,
               noAdvance := noAdvance && entry.key.isEmpty }

/-- The entry as a trie shows it: that a byte stays unread is said where the
byte is. -/
def shown (entry : TrieEntry) : TrieEntry :=
  { entry with noAdvance := entry.noAdvance && !entry.key.isEmpty }

/-- The entries cannot stand in one trie: they have one key, or the second goes
on from a byte that stays unread with the first. -/
def Clash (e o : TrieEntry) : Prop :=
  e.key = o.key ∨ ∃ b, e.noAdvance = true ∧ e.key = [b] ∧ o.key.head? = some b

theorem clash_iff {e o : TrieEntry} : e.Clash o ↔ e.key = o.key
    ∨ e.noAdvance = true ∧ e.key.length = 1 ∧ e.key.head? = o.key.head? := by
  refine or_congr Iff.rfl ⟨?_, ?_⟩
  · rintro ⟨b, hpeek, hkey, hhead⟩
    rw [hhead, hkey]
    exact ⟨hpeek, rfl, rfl⟩
  · rintro ⟨hpeek, hlen, hhead⟩
    obtain ⟨b, hkey⟩ := List.length_eq_one_iff.mp hlen
    exact ⟨b, hpeek, hkey, by rw [← hhead, hkey]; rfl⟩

instance (e o : TrieEntry) : Decidable (e.Clash o) :=
  decidable_of_iff' _ clash_iff

/-- Only keys of one byte, or what has been taken off them, stay unread. -/
def ShortPeeks (entries : List TrieEntry) : Prop :=
  ∀ e ∈ entries, e.noAdvance = true → e.key.length ≤ 1

theorem ShortPeeks.subset (h : ShortPeeks entries) (hsub : others ⊆ entries) :
    ShortPeeks others :=
  fun e he => h e (hsub he)

theorem ShortPeeks.dropKey (h : ShortPeeks entries) (n : Nat) :
    ShortPeeks (entries.map (TrieEntry.dropKey n)) := by
  intro e' he' hpeek
  obtain ⟨e, he, rfl⟩ := List.mem_map.mp he'
  exact Nat.le_trans ((List.drop_sublist n e.key).length_le) (h e he hpeek)

theorem shown_of_ne_nil {entry : TrieEntry} (hkey : entry.key ≠ []) :
    entry.shown = entry := by
  unfold shown
  rw [List.isEmpty_eq_false_iff.mpr hkey, Bool.not_false, Bool.and_true]

/-- Putting back what was taken off. -/
theorem behind_shown_dropKey {word : List UInt8} {entry : TrieEntry}
    {flag : Bool} (hword : word ≠ []) (hbegin : word <+: entry.key)
    (hflag : entry.noAdvance = flag)
    (hshort : entry.noAdvance = true → entry.key.length ≤ 1) :
    (entry.dropKey word.length).shown.behind word flag = entry.shown := by
  obtain ⟨key, hkey⟩ := hbegin
  have hdrop : entry.key.drop word.length = key := by
    rw [← hkey, List.drop_left]
  have hne : entry.key ≠ [] := by
    rw [← hkey]
    exact List.append_ne_nil_of_left_ne_nil hword key
  have hunread : (flag && key.isEmpty) = entry.noAdvance := by
    rw [← hflag]
    cases hpeek : entry.noAdvance with
    | false => rfl
    | true =>
        -- the word is all there is of the key
        have hlen := hshort hpeek
        have hpos : 0 < word.length := List.length_pos_iff.mpr hword
        rw [← hkey, List.length_append] at hlen
        rw [List.length_eq_zero_iff.mp (by omega : key.length = 0)]
        rfl
  rw [shown_of_ne_nil hne]
  unfold behind shown dropKey
  dsimp only
  rw [hdrop, hkey, hunread]

/-- What comes after a key that goes on goes on as well. -/
theorem Sorted.keys_ne_nil {first : TrieEntry} (h : Sorted (first :: entries))
    (hkey : first.key ≠ []) : ∀ e ∈ first :: entries, e.key ≠ [] := by
  intro e he hnil
  rcases List.mem_cons.mp he with rfl | he
  · exact hkey hnil
  · have hle := (List.pairwise_cons.mp h).1 e he
    rw [hnil, List.le_nil] at hle
    exact hkey hle

/-- The entries with the byte of the first key, and those without. -/
theorem Sorted.group_cons {first : TrieEntry} {key : List UInt8}
    (h : Sorted (first :: entries)) (hkey : first.key = b :: key) :
    first :: entries.takeWhile (startsWith b) = (first :: entries).filter
      (startsWith b)
      ∧ entries.dropWhile (startsWith b) = (first :: entries).filter
          (!startsWith b ·) := by
  obtain ⟨htake, hdrop⟩ := h.group hkey
  have hstarts : first.startsWith b = true := startsWith_iff.mpr ⟨key, hkey⟩
  rw [htake, hdrop, List.filter_cons_of_pos hstarts, List.filter_cons_of_neg
    (by simp [hstarts])]
  exact ⟨rfl, rfl⟩

end TrieEntry

namespace Trie

open TrieEntry

-- ============================================================== leaves

mutual

/-- The entries that the leaves of the trie stand for, from left to right. -/
def leaves : Trie → List TrieEntry
  | .leaf ended => [ended.entry]
  | .sequence literal child => (leaves child).map (behind literal false)
  | .single bs fallback =>
    (fallback.map TrieLeaf.entry).toList ++ branchLeaves bs

/-- The entries that the leaves below the branches stand for. -/
def branchLeaves : List (UInt8 × Bool × Trie) → List TrieEntry
  | [] => []
  | (b, noAdvance, child) :: more =>
    (leaves child).map (behind [b] noAdvance) ++ branchLeaves more

end

variable {name : String} {path : List (List UInt8)}
  {entries others : List TrieEntry}

private theorem entry_leaf {entry : TrieEntry} (hended : entry.key = []) :
    entry.leaf.entry = entry.shown := by
  unfold TrieEntry.leaf TrieLeaf.entry shown
  simp [hended]

/-- What the leaves below a word show, put behind the word. -/
private theorem leaves_behind {word : List UInt8} {flag : Bool}
    (hword : word ≠ []) (hbegin : ∀ e ∈ entries, word <+: e.key)
    (hflag : ∀ e ∈ entries, e.noAdvance = flag) (hshort : ShortPeeks entries) :
    ((entries.map (dropKey word.length)).map shown).map (behind word flag)
        = entries.map shown := by
  rw [List.map_map, List.map_map]
  exact List.map_congr_left fun e he =>
    behind_shown_dropKey hword (hbegin e he) (hflag e he) (hshort e he)

/-- A key that has ended comes before all that go on. -/
private theorem ascending_ended {first second : TrieEntry}
    (hended : first.key = []) (hsecond : second.key ≠ [])
    (h : Sorted (second :: entries))
    (hascending : Ascending (second :: entries)) :
    Ascending (first :: second :: entries) := by
  refine List.pairwise_cons.mpr ⟨fun e he => ?_, hascending⟩
  obtain ⟨b, key, hkey⟩ :=
    List.ne_nil_iff_exists_cons.mp (Sorted.keys_ne_nil h hsecond e he)
  rw [hended, hkey]
  exact List.nil_lt_cons b key

/-- Groups of different first bytes have no key in common. -/
private theorem ascending_cons {first : TrieEntry} {b : UInt8}
    {key : List UInt8} (h : Sorted (first :: entries))
    (hkey : first.key = b :: key)
    (hgroup : Ascending (first :: entries.takeWhile (startsWith b)))
    (hothers : Ascending (entries.dropWhile (startsWith b))) :
    Ascending (first :: entries) := by
  have hsplit : first :: entries
      = first :: entries.takeWhile (startsWith b) ++ entries.dropWhile
          (startsWith b) := by
    rw [List.cons_append, List.takeWhile_append_dropWhile]
  obtain ⟨htake, hdrop⟩ := h.group_cons hkey
  rw [hsplit] at h ⊢
  refine List.pairwise_append.mpr ⟨hgroup, hothers, fun e he o ho => ?_⟩
  have hle := (List.pairwise_append.mp h).2.2 e he o ho
  refine (List.le_iff_lt_or_eq.mp hle).resolve_right fun hsame => ?_
  rw [htake] at he
  rw [hdrop] at ho
  have hstarts := (List.mem_filter.mp he).2
  have hnot := (List.mem_filter.mp ho).2
  unfold startsWith at hstarts hnot
  rw [← hsame, hstarts] at hnot
  cases hnot

/-- What is built shows its entries, and no key was among them twice. -/
private theorem answered_shows : Answered
    (fun entries t => Sorted entries → ShortPeeks entries →
      Ascending entries ∧ t.leaves = entries.map shown)
    (fun entries bs => Sorted entries → ShortPeeks entries →
      (∀ e ∈ entries, e.key ≠ []) →
      Ascending entries ∧ branchLeaves bs = entries.map shown) where
  empty _ _ := ⟨.nil, by rw [leaves, branchLeaves]; rfl⟩
  leaf ended _ _ := by
    refine ⟨List.pairwise_singleton _ _, ?_⟩
    rw [leaves, entry_leaf ended]
    rfl
  fallback {first _ _ _} ended goes branches h hshort := by
    have hmore := (List.pairwise_cons.mp h).2
    obtain ⟨hascending, hshown⟩ :=
      branches hmore (hshort.subset (List.subset_cons_self _ _))
      (Sorted.keys_ne_nil hmore goes)
    refine ⟨ascending_ended ended goes hmore hascending, ?_⟩
    rw [leaves, hshown, List.map_cons (a := first), ← entry_leaf ended]
    rfl
  sequence {first entries _} _ deep consumes below h hshort := by
    have hcommon := groupCommon_begins h
    have hlen := length_common first entries
    have hword : first.key.take (groupCommon first entries) ≠ [] := by
      refine List.length_pos_iff.mp ?_
      omega
    -- the word in place of its length
    have hdropped := h.dropKey hcommon
    have hback := leaves_behind hword hcommon consumes hshort
    have hunique := Ascending.of_dropKey hcommon
    rw [hlen] at hdropped hback hunique
    obtain ⟨hascending, hshown⟩ := below hdropped (hshort.dropKey _)
    refine ⟨hunique hascending, ?_⟩
    rw [leaves, hshown, hback]
  single goes branches h hshort := by
    obtain ⟨hascending, hshown⟩ :=
      branches h hshort (Sorted.keys_ne_nil h goes)
    refine ⟨hascending, ?_⟩
    rw [leaves, hshown]
    rfl
  nil _ _ _ := ⟨.nil, by rw [branchLeaves]; rfl⟩
  ended ended _ _ hkeys := absurd ended (hkeys _ List.mem_cons_self)
  branch {first entries b _ _ _} key alike below behind h hshort hkeys := by
    have hgroup : (first :: entries.takeWhile (startsWith b)).Sublist
        (first :: entries) :=
      (List.takeWhile_sublist _).cons_cons first
    have hothers : (entries.dropWhile (startsWith b)).Sublist
        (first :: entries) :=
      (List.dropWhile_sublist _).trans (List.sublist_cons_self _ _)
    have hbegin : ∀ e ∈ first :: entries.takeWhile (startsWith b),
        [b] <+: e.key :=
      begins_of_group key
    have hsorted : Sorted (first :: entries.takeWhile (startsWith b)) :=
      h.sublist hgroup
    have hpeeks := hshort.subset hgroup.subset
    obtain ⟨hascending, hshown⟩ := below (hsorted.dropKey hbegin)
      (hpeeks.dropKey 1)
    obtain ⟨hascendingMore, hshownMore⟩ := behind (h.sublist hothers)
      (hshort.subset hothers.subset) (fun e he => hkeys e (hothers.subset he))
    refine ⟨ascending_cons h key (Ascending.of_dropKey hbegin hascending)
      hascendingMore, ?_⟩
    have hback := leaves_behind (List.cons_ne_nil b []) hbegin
      (alike_of_not_mixed alike) hpeeks
    rw [branchLeaves, hshown, hshownMore]
    calc ((List.map (dropKey 1)
            (first :: entries.takeWhile (startsWith b))).map shown).map
            (TrieEntry.behind [b] first.noAdvance)
          ++ (entries.dropWhile (startsWith b)).map shown
        = (first :: entries.takeWhile (startsWith b)).map shown
            ++ (entries.dropWhile (startsWith b)).map shown :=
              congrArg (· ++ _) hback
      _ = (first :: entries).map shown := by
          rw [← List.map_append, List.cons_append,
            List.takeWhile_append_dropWhile]

/-- The leaves of a level are its entries, from left to right, and no key is
among them twice. -/
theorem leaves_of_level (h : Sorted entries) (hshort : ShortPeeks entries)
    {t : Trie} (hok : level name path entries = .ok t) :
    Ascending entries ∧ t.leaves = entries.map shown :=
  answered_shows.level hok h hshort

/-- The leaves of what is built are the entries, from left to right in the
order of their keys. -/
theorem leaves_of_build (hkeys : ∀ e ∈ entries, e.key ≠ [])
    (hshort : ShortPeeks entries) {t : Trie}
    (hok : build name entries = .ok (some t)) :
    Ascending (entries.mergeSort keyLE)
        ∧ t.leaves = entries.mergeSort keyLE := by
  have hperm := List.mergeSort_perm entries keyLE
  obtain ⟨hascending, hleaves⟩ := leaves_of_level (sorted_mergeSort entries)
    (hshort.subset hperm.subset) (level_of_build hok).2
  refine ⟨hascending, hleaves.trans ?_⟩
  conv_rhs => rw [← List.map_id (entries.mergeSort keyLE)]
  exact List.map_congr_left fun e he => shown_of_ne_nil
    (hkeys e (hperm.subset he))

-- ============================================================ refusing

/-- From a byte that stays unread no other key goes on. -/
theorem Covers.key_of_peek {t : Trie} (h : Covers t entries)
    (hshort : ShortPeeks entries) {e o : TrieEntry} {b : UInt8}
    (he : e ∈ entries) (ho : o ∈ entries) (hpeek : e.noAdvance = true)
    (hkey : e.key = [b]) (hstarts : o.startsWith b = true) :
    o.key = [b] := by
  cases h with
  | leaf ended =>
      rw [List.mem_singleton.mp he, ended] at hkey
      cases hkey
  | sequence _ _ _ consumes _ =>
      rw [consumes e he] at hpeek
      cases hpeek
  | single _ bytes alike _ _ _ =>
      obtain ⟨key, hokey⟩ := startsWith_iff.mp hstarts
      have hederive : e.dropKey 1 ∈ derive b entries :=
        mem_derive.mpr ⟨e, he, ⟨[], hkey⟩, rfl⟩
      have hoderive : o.dropKey 1 ∈ derive b entries :=
        mem_derive.mpr ⟨o, ho, ⟨key, hokey⟩, rfl⟩
      obtain ⟨x, hx, rfl⟩ := (bytes b).mp (List.ne_nil_of_mem hederive)
      have hopeek : o.noAdvance = true :=
        ((alike x hx _ hoderive).trans (alike x hx _ hederive).symm).trans
          hpeek
      have hlen := hshort o ho hopeek
      rw [hokey, List.length_cons] at hlen
      rw [hokey, List.length_eq_zero_iff.mp (by omega : key.length = 0)]

/-- Entries that are built have different keys. -/
theorem distinct_of_build (hkeys : ∀ e ∈ entries, e.key ≠ [])
    (hshort : ShortPeeks entries) {built : Option Trie}
    (hok : build name entries = .ok built) :
    entries.Pairwise fun a b => a.key ≠ b.key := by
  cases built with
  | none =>
      rw [build_eq_none_iff.mp hok]
      exact .nil
  | some t =>
      have hdistinct : (entries.mergeSort keyLE).Pairwise fun a b => a.key
          ≠ b.key := by
        refine (leaves_of_build hkeys hshort hok).1.imp fun {a b} hlt hsame =>
          ?_
        rw [hsame] at hlt
        exact List.lt_irrefl _ hlt
      exact (List.mergeSort_perm entries keyLE).pairwise hdistinct fun hne =>
        Ne.symm hne

/-- Building is refused exactly if two of the entries clash. -/
theorem refused_iff (hkeys : ∀ e ∈ entries, e.key ≠ [])
    (hpeeks : ∀ e ∈ entries, e.noAdvance = true → e.key.length = 1) :
    (∃ cause, build name entries = .error cause)
      ↔ ∃ i j : Fin entries.length, i ≠ j
          ∧ (entries.get i).Clash (entries.get j) := by
  have hshort : ShortPeeks entries :=
    fun e he hpeek => Nat.le_of_eq (hpeeks e he hpeek)
  constructor
  · rintro ⟨cause, hrefused⟩
    by_contra hnone
    have hapart : ∀ i j : Fin entries.length, i ≠ j →
        ¬ (entries.get i).Clash (entries.get j) :=
      fun i j hij hclash => hnone ⟨i, j, hij, hclash⟩
    have hdistinct : entries.Pairwise fun a b => a.key ≠ b.key :=
      List.pairwise_iff_getElem.mpr fun i j hi hj hij hsame =>
        hapart ⟨i, hi⟩ ⟨j, hj⟩
          (fun h => absurd (Fin.mk.inj h) (Nat.ne_of_lt hij)) (.inl hsame)
    have halone : PeeksApart entries := by
      intro e he hpeek
      refine ⟨hshort e he hpeek, fun o ho hprefix => ?_⟩
      obtain ⟨i, hi, rfl⟩ := List.mem_iff_getElem.mp he
      obtain ⟨j, hj, rfl⟩ := List.mem_iff_getElem.mp ho
      by_contra hne
      obtain ⟨b, hb⟩ := List.length_eq_one_iff.mp (hpeeks _ he hpeek)
      obtain ⟨key, hkey⟩ := hprefix
      refine hapart ⟨i, hi⟩ ⟨j, hj⟩ (fun h => hne ?_) (.inr ⟨b, hpeek, hb, ?_⟩)
      · obtain rfl := Fin.mk.inj h
        rfl
      · show entries[j].key.head? = some b
        rw [← hkey, hb]
        rfl
    obtain ⟨built, hok, _⟩ := build_succeeds hdistinct halone hkeys
    rw [hrefused] at hok
    cases hok
  · rintro ⟨i, j, hij, hclash⟩
    cases hbuild : build name entries with
    | error cause => exact ⟨cause, rfl⟩
    | ok built =>
        have hdistinct := distinct_of_build hkeys hshort hbuild
        have hne : (entries.get i).key ≠ (entries.get j).key := by
          have hpairs := List.pairwise_iff_getElem.mp hdistinct
          rcases Nat.lt_or_gt_of_ne (fun h => hij (Fin.ext h)) with hlt | hgt
          · exact hpairs i j i.isLt j.isLt hlt
          · exact (hpairs j i j.isLt i.isLt hgt).symm
        rcases hclash with hsame | ⟨b, hpeek, hkey, hhead⟩
        · exact absurd hsame hne
        cases built with
        | none =>
            exact absurd (build_eq_none_iff.mp hbuild)
              (List.ne_nil_of_mem (List.getElem_mem i.isLt))
        | some t =>
            have hperm := List.mergeSort_perm entries keyLE
            have hmem : ∀ k : Fin entries.length,
                entries.get k ∈ entries.mergeSort keyLE :=
              fun k => hperm.mem_iff.mpr (List.getElem_mem k.isLt)
            have hokey := (build_covers hdistinct hbuild).key_of_peek
              (hshort.subset hperm.subset)
              (hmem i) (hmem j) hpeek hkey (beq_iff_eq.mpr hhead)
            exact absurd (hkey.trans hokey.symm) hne

end Trie

end Bytewise

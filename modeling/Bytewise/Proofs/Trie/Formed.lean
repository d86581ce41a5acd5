/-
Which keys have a trie, and what its levels look like.

A trie of distinct keys can only fail where an edge leaves the byte that
another one takes, and no key is taken off a level without all others of
its group: if every key that stays unread is a byte that no other key
begins with (`PeeksApart`), that is so on every level, and none fails. What
is built is in form, whether or not something might have failed: literals
of two bytes or more, and branches in the order of their bytes.
-/
import Mathlib.Data.List.TakeWhile
import Bytewise.Proofs.Trie.Covers

namespace Bytewise.Trie

open TrieEntry

variable {name : String} {path : List (List UInt8)} {entries : List TrieEntry}

-- =============================================================== form

/-- The literals of the trie are worth comparing at once, and its branches are
ascending. -/
inductive Formed : Trie → Prop where
  | leaf (leaf : TrieLeaf) : Formed (.leaf leaf)
  | sequence {literal : List UInt8} {child : Trie} (long : 2 ≤ literal.length)
      (below : Formed child) : Formed (.sequence literal child)
  | single {bs : List (UInt8 × Bool × Trie)} {fallback : Option TrieLeaf}
      (ascending : (bs.map (·.1)).Pairwise (· < ·))
      (below : ∀ x ∈ bs, Formed x.2.2) :
      Formed (.single bs fallback)

-- =============================================================== peeks

/-- A key that stays unread is a byte at most, and no other key goes on from
it. -/
def PeeksApart (entries : List TrieEntry) : Prop :=
  ∀ e ∈ entries, e.noAdvance = true →
    e.key.length ≤ 1 ∧ ∀ o ∈ entries, e.key <+: o.key → o = e

theorem PeeksApart.subset {others : List TrieEntry} (h : PeeksApart entries)
    (hsub : others ⊆ entries) : PeeksApart others := by
  intro e he hpeek
  obtain ⟨hlen, halone⟩ := h e (hsub he) hpeek
  exact ⟨hlen, fun o ho => halone o (hsub ho)⟩

/-- Behind a byte or more that all keys begin with, what stays unread is
alone. -/
theorem PeeksApart.dropKey {word : List UInt8} (h : PeeksApart entries)
    (hword : word ≠ []) (hcommon : ∀ e ∈ entries, word <+: e.key) :
    PeeksApart (entries.map (TrieEntry.dropKey word.length)) := by
  intro e' he' hpeek
  obtain ⟨e, he, rfl⟩ := List.mem_map.mp he'
  obtain ⟨hlen, halone⟩ := h e he hpeek
  -- a key of one byte is the word that all begin with
  have hkey : e.key = word := by
    have hpos : 0 < word.length := List.length_pos_iff.mpr hword
    exact ((hcommon e he).eq_of_length_le (by omega)).symm
  have hdropped : (e.dropKey word.length).key = [] := by
    simp [TrieEntry.dropKey, hkey]
  refine ⟨by simp [hdropped], fun o' ho' _ => ?_⟩
  obtain ⟨o, ho, rfl⟩ := List.mem_map.mp ho'
  rw [halone o ho (hkey ▸ hcommon o ho)]

/-- A group that begins alike and goes on for two bytes has nothing that stays
unread. -/
theorem PeeksApart.consumes {first : TrieEntry}
    (h : PeeksApart (first :: entries))
    (hcommon : ∀ e ∈ first :: entries,
      first.key.take (groupCommon first entries) <+: e.key)
    (hdeep : 1 < groupCommon first entries) :
    ¬ (first.noAdvance || entries.any (·.noAdvance)) = true := by
  have hnone : ∀ e ∈ first :: entries, ¬ e.noAdvance = true := by
    intro e he hpeek
    have hlen := (hcommon e he).length_le
    have hcount : groupCommon first entries ≤ first.key.length :=
      commonLength_le _ _
    rw [List.length_take, Nat.min_eq_left hcount] at hlen
    have hpeeked := (h e he hpeek).1
    omega
  rw [Bool.or_eq_true, List.any_eq_true]
  rintro (hfirst | ⟨e, he, hpeek⟩)
  · exact hnone first List.mem_cons_self hfirst
  · exact hnone e (List.mem_cons_of_mem _ he) hpeek

/-- A group with one first byte stays unread as a whole or is taken as a
whole. -/
theorem PeeksApart.alike {first : TrieEntry} {b : UInt8} {key : List UInt8}
    (h : PeeksApart (first :: entries)) (hkey : first.key = b :: key) :
    ¬ isMixed first (entries.takeWhile (startsWith b)) = true := by
  have hbyte : ∀ e ∈ first :: entries, e.startsWith b = true →
      e.noAdvance = true →
      e.key = [b] := by
    intro e he hb hpeek
    obtain ⟨k, hk⟩ := startsWith_iff.mp hb
    have hlen := (h e he hpeek).1
    rw [hk, List.length_cons] at hlen
    rw [hk, List.length_eq_zero_iff.mp
      (Nat.le_zero.mp (Nat.le_of_succ_le_succ hlen))]
  have hfirst : first.startsWith b = true := startsWith_iff.mpr ⟨key, hkey⟩
  unfold isMixed
  rw [List.any_eq_true]
  rintro ⟨e, he, hne⟩
  have hmem : e ∈ first :: entries :=
    List.mem_cons_of_mem _ ((List.takeWhile_sublist _).subset he)
  have hb : e.startsWith b = true := List.mem_takeWhile_imp he
  obtain ⟨k, hk⟩ := startsWith_iff.mp hb
  -- whichever of the two stays unread, the other goes on from it
  have hsame : e = first := by
    cases hpeek : first.noAdvance with
    | true =>
        refine (h first List.mem_cons_self hpeek).2 e hmem ?_
        rw [hbyte first List.mem_cons_self hfirst hpeek, hk]
        exact ⟨k, rfl⟩
    | false =>
        rw [hpeek, bne_iff_ne, ne_eq, Bool.not_eq_false] at hne
        refine ((h e hmem hne).2 first List.mem_cons_self ?_).symm
        rw [hbyte e hmem hb hne, hkey]
        exact ⟨key, rfl⟩
  rw [hsame] at hne
  simp at hne

-- ========================================================== what is made

private theorem formed_cons {first : TrieEntry} {b : UInt8} {key : List UInt8}
    {child : Trie} {more : List (UInt8 × Bool × Trie)}
    (h : Ascending (first :: entries)) (hkey : first.key = b :: key)
    (hchild : Formed child) (hascending : (more.map (·.1)).Pairwise (· < ·))
    (hformed : ∀ x ∈ more, Formed x.2.2)
    (hbytes : ∀ x ∈ more, ∃ e ∈ entries.dropWhile (startsWith b),
      e.startsWith x.1 = true) :
    (((b, first.noAdvance, child) :: more).map (·.1)).Pairwise (· < ·)
      ∧ (∀ x ∈ (b, first.noAdvance, child) :: more, Formed x.2.2)
      ∧ ∀ x ∈ (b, first.noAdvance, child) :: more,
          ∃ e ∈ first :: entries, e.startsWith x.1 = true := by
  refine ⟨List.pairwise_cons.mpr ⟨fun c hc => ?_, hascending⟩, fun x hx => ?_,
    fun x hx => ?_⟩
  · obtain ⟨x, hx, rfl⟩ := List.mem_map.mp hc
    obtain ⟨e, he, hstarts⟩ := hbytes x hx
    exact h.sorted.lt_of_behind hkey he hstarts
  · rcases List.mem_cons.mp hx with rfl | hx
    · exact hchild
    · exact hformed x hx
  · rcases List.mem_cons.mp hx with rfl | hx
    · exact ⟨first, List.mem_cons_self, startsWith_iff.mpr ⟨key, hkey⟩⟩
    · obtain ⟨e, he, hstarts⟩ := hbytes x hx
      exact ⟨e, List.mem_cons_of_mem _ ((List.dropWhile_sublist _).subset he),
        hstarts⟩

/-- What sorted entries are built into is in form, with branches in the order
of the first bytes. -/
private theorem answered_formed :
    Answered (fun entries t => Ascending entries → Formed t)
    (fun entries bs => Ascending entries → (bs.map (·.1)).Pairwise (· < ·)
      ∧ (∀ x ∈ bs, Formed x.2.2) ∧ ∀ x ∈ bs, ∃ e ∈ entries, e.startsWith x.1
          = true) where
  empty _ := .single .nil fun _ hx => absurd hx List.not_mem_nil
  leaf _ _ := .leaf _
  fallback _ _ branches h := by
    obtain ⟨hascending, hformed, _⟩ := branches (List.pairwise_cons.mp h).2
    exact .single hascending hformed
  sequence {first entries _} _ deep _ below h := by
    refine .sequence ?_ (below h.dropCommon)
    rw [length_common]
    exact deep
  single _ branches h := by
    obtain ⟨hascending, hformed, _⟩ := branches h
    exact .single hascending hformed
  nil _ :=
    ⟨.nil, fun _ hx => absurd hx List.not_mem_nil, fun _ hx =>
      absurd hx List.not_mem_nil⟩
  ended _ _ :=
    ⟨.nil, fun _ hx => absurd hx List.not_mem_nil, fun _ hx =>
      absurd hx List.not_mem_nil⟩
  branch key _ below behind h := by
    obtain ⟨hascending, hformed, hbytes⟩ :=
      behind ((List.pairwise_cons.mp h).2.sublist (List.dropWhile_sublist _))
    exact formed_cons h key (below (h.dropFirst key)) hascending hformed hbytes

/-- What sorted entries are built into is in form. -/
theorem level_formed (h : Ascending entries) {t : Trie}
    (hok : level name path entries = .ok t) :
    Formed t :=
  answered_formed.level hok h

-- ============================================================ building

/-- A level of such entries is built. -/
private def LevelBuilds (name : String) (path : List (List UInt8))
    (entries : List TrieEntry) :
    Prop :=
  Ascending entries → PeeksApart entries →
    (path = [] → ∀ e ∈ entries, e.key ≠ []) →
    ∃ t, level name path entries = .ok t

/-- The branches of a level are built. -/
private def BranchesBuild (name : String) (path : List (List UInt8))
    (entries : List TrieEntry) :
    Prop :=
  Ascending entries → PeeksApart entries → (∀ e ∈ entries, e.key ≠ []) →
    ∃ bs, branches name path entries = .ok bs

private theorem levelBuilds_fallback {first second : TrieEntry}
    (hended : first.key.isEmpty = true) (hpath : ¬ path.isEmpty = true)
    (hsecond : ¬ second.key.isEmpty = true)
    (ih : BranchesBuild name path (second :: entries)) :
    LevelBuilds name path (first :: second :: entries) := by
  intro h hpeeks _
  obtain ⟨bs, hbs⟩ :=
    ih (List.pairwise_cons.mp h).2 (hpeeks.subset (List.subset_cons_self _ _))
    (keys_ne_nil h)
  refine ⟨.single bs (some first.leaf), ?_⟩
  rw [level, if_pos hended, if_neg hpath, if_neg hsecond, hbs]
  rfl

private theorem levelBuilds_sequence {first : TrieEntry}
    (hkey : ¬ first.key.isEmpty = true) (hdeep : 1 < groupCommon first entries)
    (ih : LevelBuilds name
      (path ++ [first.key.take (groupCommon first entries)])
      ((first :: entries).map
        (TrieEntry.dropKey (groupCommon first entries)))) :
    LevelBuilds name path (first :: entries) := by
  intro h hpeeks _
  have hcommon := groupCommon_begins h.sorted
  have hword : first.key.take (groupCommon first entries) ≠ [] := by
    intro hnil
    have hlen := length_common first entries
    rw [hnil] at hlen
    simp only [List.length_nil] at hlen
    omega
  have hapart := hpeeks.dropKey hword hcommon
  rw [length_common] at hapart
  obtain ⟨child, hchild⟩ :=
    ih (h.dropCommon) hapart (fun hnil => absurd hnil (by simp))
  refine ⟨.sequence (first.key.take (groupCommon first entries)) child, ?_⟩
  rw [level_of_key hkey, if_pos hdeep, if_neg (hpeeks.consumes hcommon hdeep),
    hchild]
  rfl

private theorem levelBuilds_single {first : TrieEntry}
    (hkey : ¬ first.key.isEmpty = true)
    (hflat : ¬ 1 < groupCommon first entries)
    (ih : BranchesBuild name path (first :: entries)) :
    LevelBuilds name path (first :: entries) := by
  intro h hpeeks _
  have hkeys : ∀ e ∈ first :: entries, e.key ≠ [] := by
    intro e he
    rcases List.mem_cons.mp he with rfl | he
    · exact fun hnil => hkey (List.isEmpty_iff.mpr hnil)
    · exact keys_ne_nil h e he
  obtain ⟨bs, hbs⟩ := ih h hpeeks hkeys
  refine ⟨.single bs none, ?_⟩
  rw [level_of_key hkey, if_neg hflat, hbs]
  rfl

private theorem branchesBuild_cons {first : TrieEntry} {b : UInt8}
    {key : List UInt8} (hkey : first.key = b :: key)
    (ihchild : LevelBuilds name (path ++ [[b]])
      ((first :: entries.takeWhile (startsWith b)).map (TrieEntry.dropKey 1)))
    (ihmore : BranchesBuild name path (entries.dropWhile (startsWith b))) :
    BranchesBuild name path (first :: entries) := by
  intro h hpeeks hkeys
  have hgroup : (first :: entries.takeWhile (startsWith b)).Sublist
      (first :: entries) :=
    (List.takeWhile_sublist _).cons_cons first
  have hothers : (entries.dropWhile (startsWith b)).Sublist
      (first :: entries) :=
    (List.dropWhile_sublist _).trans (List.sublist_cons_self _ _)
  obtain ⟨child, hchild⟩ := ihchild (h.dropFirst hkey)
    ((hpeeks.subset hgroup.subset).dropKey (List.cons_ne_nil _ _)
      (begins_of_group hkey))
    (fun hnil => absurd hnil (by simp))
  obtain ⟨more, hmore⟩ := ihmore (h.sublist hothers)
    (hpeeks.subset hothers.subset)
    (fun e he => hkeys e (hothers.subset he))
  refine ⟨(b, first.noAdvance, child) :: more, ?_⟩
  rw [branches_of_key hkey, if_neg (hpeeks.alike hkey), hchild, hmore]
  rfl

/-- Sorted entries with their peeks apart have a level. -/
theorem level_builds (h : Ascending entries) (hpeeks : PeeksApart entries)
    (hkeys : path = [] → ∀ e ∈ entries, e.key ≠ []) :
    ∃ t, level name path entries = .ok t := by
  have hlevels : ∀ path entries, LevelBuilds name path entries := by
    refine level.induct (LevelBuilds name) (BranchesBuild name) ?_ ?_ ?_ ?_ ?_
      ?_ ?_ ?_ ?_ ?_ ?_ ?_
    · intro path _ _ _
      exact ⟨.single [] none, by rw [level]⟩
    · -- a key that ends here, alone
      intro path entry hended _ _ _
      exact ⟨.leaf entry.leaf, by rw [level, if_pos hended]⟩
    · intro path first hended second entries hpath _ _ hkeys
      exact absurd (List.isEmpty_iff.mp hended)
        (hkeys (List.isEmpty_iff.mp hpath) first List.mem_cons_self)
    · intro path first hended second entries hpath hsecond h _ _
      exact absurd (List.isEmpty_iff.mp hsecond)
        (keys_ne_nil h second List.mem_cons_self)
    · exact fun _ _ hended _ _ hpath hsecond ih => levelBuilds_fallback hended
        hpath hsecond ih
    · intro path first entries hkey hdeep hmixed h hpeeks _
      exact absurd hmixed (hpeeks.consumes (groupCommon_begins h.sorted) hdeep)
    · exact fun _ _ _ hkey hdeep _ ih => levelBuilds_sequence hkey hdeep ih
    · exact fun _ _ _ hkey hflat ih => levelBuilds_single hkey hflat ih
    · intro path _ _ _
      exact ⟨[], by rw [branches]⟩
    · exact fun _ first _ hnil _ _ hkeys =>
        absurd hnil (hkeys first List.mem_cons_self)
    · intro path first entries b key hkey group hmixed h hpeeks _
      exact absurd hmixed (hpeeks.alike hkey)
    · exact fun _ _ _ _ _ hkey _ ihchild ihmore => branchesBuild_cons hkey
        ihchild ihmore
  exact hlevels path entries h hpeeks hkeys

/-- What entries with different keys are built into is in form. -/
theorem formed_of_build (hdistinct : entries.Pairwise fun a b => a.key ≠ b.key)
    {t : Trie} (hok : build name entries = .ok (some t)) : Formed t :=
  level_formed (ascending_mergeSort hdistinct) (level_of_build hok).2

/-- Entries with different keys, none empty and peeks apart, are built into a
trie in form. -/
theorem build_succeeds (hdistinct : entries.Pairwise fun a b => a.key ≠ b.key)
    (hpeeks : PeeksApart entries) (hkeys : ∀ e ∈ entries, e.key ≠ []) :
    ∃ built, build name entries = .ok built ∧ ∀ t, built = some t →
        Formed t := by
  by_cases hne : entries = []
  · subst hne
    exact ⟨none, rfl, fun _ h => nomatch h⟩
  · have hperm := List.mergeSort_perm entries keyLE
    obtain ⟨t, ht⟩ : ∃ t, level name [] (entries.mergeSort keyLE) = .ok t :=
      level_builds (ascending_mergeSort hdistinct) (hpeeks.subset hperm.subset)
        fun _ e he => hkeys e (hperm.subset he)
    have hok : build name entries = .ok (some t) := by
      rw [build_of_ne_nil hne, ht]
      rfl
    exact ⟨some t, hok, fun t' h => Option.some.inj h ▸ formed_of_build
      hdistinct hok⟩

end Bytewise.Trie

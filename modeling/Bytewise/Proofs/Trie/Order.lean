/-
The order of the entries does not matter.

Sorting leaves open in which order entries of one key stand, and nothing
that a level asks of its entries tells these orders apart: the keys are the
same one by one, and whether some entry stays unread, or two differ in
that, is asked of all of them. So levels of sorted entries that are the
same but for their order are the same, refusals included
(`level_of_perm`), and so is what is built (`build_of_perm`).
-/
import Bytewise.Proofs.Trie.Leaves

namespace Bytewise.Trie

open TrieEntry

variable {name : String} {path : List (List UInt8)}
  {entries others : List TrieEntry} {first first' : TrieEntry}

-- ================================================== what a level asks

/-- Sorted entries that are the same but for their order have the same keys,
one by one. -/
theorem keys_of_perm (h : Sorted entries) (h' : Sorted others)
    (hperm : others.Perm entries) :
    others.map (·.key) = entries.map (·.key) :=
  List.Perm.eq_of_pairwise (fun _ _ _ _ => List.le_antisymm)
    (List.pairwise_map.mpr h')
    (List.pairwise_map.mpr h) (hperm.map _)

theorem cons_of_perm (h : Sorted (first :: entries)) (h' : Sorted others)
    (hperm : others.Perm (first :: entries)) :
    ∃ first' entries', others = first' :: entries' ∧ first'.key = first.key
      ∧ entries'.map (·.key) = entries.map (·.key) := by
  have hkeys := keys_of_perm h h' hperm
  cases others with
  | nil => cases hkeys
  | cons first' entries' =>
      obtain ⟨hkey, hkeys⟩ := List.cons.inj hkeys
      exact ⟨first', entries', rfl, hkey, hkeys⟩

/-- What keys have in common is a matter of the keys. -/
theorem groupCommon_congr (hkey : first'.key = first.key)
    (hkeys : others.map (·.key) = entries.map (·.key)) :
    groupCommon first' others = groupCommon first entries := by
  have hlast : ∀ (first : TrieEntry) (entries : List TrieEntry),
      (entries.getLast?.getD first).key = (entries.map (·.key)).getLast?.getD
          first.key := by
    intro first entries
    rw [List.getLast?_map, Option.getD_map]
  unfold groupCommon
  rw [hlast, hlast, hkey, hkeys]

theorem isMixed_iff : isMixed first entries = true
    ↔ ∃ e ∈ first :: entries, ∃ o ∈ first :: entries,
        e.noAdvance ≠ o.noAdvance := by
  constructor
  · intro hmixed
    obtain ⟨e, he, hne⟩ := List.any_eq_true.mp hmixed
    exact ⟨e, List.mem_cons_of_mem _ he, first, List.mem_cons_self,
      bne_iff_ne.mp hne⟩
  · rintro ⟨e, he, o, ho, hne⟩
    by_contra hmixed
    have halike := alike_of_not_mixed (Bool.eq_false_iff.mpr hmixed)
    exact hne ((halike e he).trans (halike o ho).symm)

theorem isMixed_of_perm (hperm : (first' :: others).Perm (first :: entries)) :
    isMixed first' others = isMixed first entries := by
  rw [Bool.eq_iff_iff, isMixed_iff, isMixed_iff]
  simp only [hperm.mem_iff]

-- ============================================================== levels

/-- The level is that of the entries in every order that is sorted. -/
private def LevelSettled (name : String) (path : List (List UInt8))
    (entries : List TrieEntry) :
    Prop :=
  Sorted entries → ∀ others, Sorted others → others.Perm entries →
    level name path others = level name path entries

/-- The branches are those of the entries in every order that is sorted. -/
private def BranchesSettled (name : String) (path : List (List UInt8))
    (entries : List TrieEntry) :
    Prop :=
  Sorted entries → ∀ others, Sorted others → others.Perm entries →
    branches name path others = branches name path entries

/-- Among sorted entries the only one whose key has ended stays first. -/
private theorem head_of_perm {second : TrieEntry}
    (h : Sorted (first :: second :: entries)) (hkey : first'.key = first.key)
    (hended : first.key = []) (hsecond : second.key ≠ [])
    (hperm : (first' :: others).Perm (first :: second :: entries)) :
    first' = first := by
  refine (List.mem_cons.mp (hperm.mem_iff.mp List.mem_cons_self)).resolve_right
    fun hmem => ?_
  exact Sorted.keys_ne_nil (List.pairwise_cons.mp h).2 hsecond first' hmem
    (hkey.trans hended)

private theorem levelSettled_fallback {second : TrieEntry}
    (hended : first.key.isEmpty = true) (hpath : ¬ path.isEmpty = true)
    (hsecond : ¬ second.key.isEmpty = true)
    (ih : BranchesSettled name path (second :: entries)) :
    LevelSettled name path (first :: second :: entries) := by
  intro h others h' hperm
  obtain ⟨first', entries', rfl, hkey, hkeys⟩ := cons_of_perm h h' hperm
  have hnil : first.key = [] := List.isEmpty_iff.mp hended
  obtain rfl : first' = first :=
    head_of_perm h hkey hnil (fun hnil => hsecond (List.isEmpty_iff.mpr hnil))
      hperm
  obtain ⟨second', more', rfl, hkey', _⟩ :=
    cons_of_perm (List.pairwise_cons.mp h).2 (List.pairwise_cons.mp h').2
      hperm.cons_inv
  rw [level, if_pos hended, if_neg hpath, if_neg (hkey' ▸ hsecond), level,
    if_pos hended,
    if_neg hpath, if_neg hsecond]
  rw [ih (List.pairwise_cons.mp h).2 _ (List.pairwise_cons.mp h').2
    hperm.cons_inv]

/-- A level whose keys go on asks for their common length, and whether one
stays unread. -/
private theorem level_of_key_perm (hkey : ¬ first.key.isEmpty = true)
    (hfirst : first'.key = first.key)
    (hkeys : others.map (·.key) = entries.map (·.key))
    (hperm : (first' :: others).Perm (first :: entries)) :
    level name path (first' :: others)
      = if 1 < groupCommon first entries then
          if first.noAdvance || entries.any (·.noAdvance) then
            .error (.peekMatchConflict name path)
          else do
            let child ← level name
              (path ++ [first.key.take (groupCommon first entries)])
              ((first' :: others).map
                (TrieEntry.dropKey (groupCommon first entries)))
            return .sequence (first.key.take (groupCommon first entries)) child
        else do
          return .single (← branches name path (first' :: others)) none := by
  have hany : (first'.noAdvance || others.any (·.noAdvance))
      = (first.noAdvance || entries.any (·.noAdvance)) := by
    rw [← List.any_cons, ← List.any_cons]
    exact hperm.any_eq
  rw [level_of_key (hfirst ▸ hkey), groupCommon_congr hfirst hkeys,
    hany, hfirst]

/-- The group of the first byte, and what is left behind it. -/
private theorem group_of_perm {b : UInt8} {key : List UInt8}
    (h : Sorted (first :: entries)) (h' : Sorted (first' :: others))
    (hkey : first.key = b :: key) (hfirst : first'.key = first.key)
    (hperm : (first' :: others).Perm (first :: entries)) :
    (first' :: others.takeWhile (startsWith b)).Perm
      (first :: entries.takeWhile (startsWith b))
      ∧ (others.dropWhile (startsWith b)).Perm
          (entries.dropWhile (startsWith b)) := by
  obtain ⟨htake, hdrop⟩ := h.group_cons hkey
  obtain ⟨htake', hdrop'⟩ := h'.group_cons (hfirst.trans hkey)
  rw [htake, hdrop, htake', hdrop']
  exact ⟨hperm.filter _, hperm.filter _⟩

private theorem branchesSettled_cons {b : UInt8} {key : List UInt8}
    (hkey : first.key = b :: key)
    (halike : ¬ isMixed first (entries.takeWhile (startsWith b)) = true)
    (ihchild : LevelSettled name (path ++ [[b]])
      ((first :: entries.takeWhile (startsWith b)).map (TrieEntry.dropKey 1)))
    (ihmore : BranchesSettled name path (entries.dropWhile (startsWith b))) :
    BranchesSettled name path (first :: entries) := by
  intro h others h' hperm
  obtain ⟨first', entries', rfl, hfirst, _⟩ := cons_of_perm h h' hperm
  obtain ⟨hgroup, hothers⟩ := group_of_perm h h' hkey hfirst hperm
  have hsame : first'.noAdvance = first.noAdvance :=
    alike_of_not_mixed (Bool.eq_false_iff.mpr halike) first'
      (hgroup.mem_iff.mp List.mem_cons_self)
  have hbehind : ∀ {es : List TrieEntry} {e : TrieEntry}, Sorted (e :: es) →
      Sorted (es.dropWhile (startsWith b)) := fun h =>
    (List.pairwise_cons.mp h).2.sublist (List.dropWhile_sublist _)
  rw [branches_of_key (hfirst.trans hkey),
    if_neg (isMixed_of_perm hgroup ▸ halike),
    ihchild (h.dropFirst hkey) _ (h'.dropFirst (hfirst.trans hkey))
      (hgroup.map _),
    ihmore (hbehind h) _ (hbehind h') hothers, hsame, branches_of_key hkey,
      if_neg halike]

/-- Levels of sorted entries do not depend on their order. -/
theorem level_of_perm (h : Sorted entries) (h' : Sorted others)
    (hperm : others.Perm entries) :
    level name path others = level name path entries := by
  have hlevels : ∀ path entries, LevelSettled name path entries := by
    refine level.induct (LevelSettled name) (BranchesSettled name)
      ?_ ?_ ?_ ?_ ?_ ?_ ?_ ?_ ?_ ?_ ?_ ?_
    · intro path _ others _ hperm
      rw [List.perm_nil.mp hperm]
    · -- a key that ends here, alone
      intro path entry _ _ others _ hperm
      rw [List.perm_singleton.mp hperm]
    · intro path first hended second entries hpath h others h' hperm
      obtain ⟨first', entries', rfl, hkey, hkeys⟩ := cons_of_perm h h' hperm
      obtain ⟨second', more', rfl, hkey', _⟩ := List.map_eq_cons_iff.mp hkeys
      rw [level, if_pos (hkey ▸ hended), if_pos hpath, level, if_pos hended,
        if_pos hpath]
    · intro path first hended second entries hpath hsecond h others h' hperm
      obtain ⟨first', entries', rfl, hkey, hkeys⟩ := cons_of_perm h h' hperm
      obtain ⟨second', more', rfl, hkey', _⟩ := List.map_eq_cons_iff.mp hkeys
      rw [level, if_pos (hkey ▸ hended), if_neg hpath,
        if_pos (hkey' ▸ hsecond), level,
        if_pos hended, if_neg hpath, if_pos hsecond]
    · exact fun _ _ hended _ _ hpath hsecond ih => levelSettled_fallback hended
        hpath hsecond ih
    · intro path first entries hkey hdeep hpeeks h others h' hperm
      obtain ⟨first', entries', rfl, hfirst, hkeys⟩ := cons_of_perm h h' hperm
      rw [level_of_key_perm hkey hfirst hkeys hperm, if_pos hdeep,
        if_pos hpeeks,
        level_of_key hkey, if_pos hdeep, if_pos hpeeks]
    · intro path first entries hkey common hdeep hconsumes literal ih h
        others h' hperm
      obtain ⟨first', entries', rfl, hfirst, hkeys⟩ := cons_of_perm h h' hperm
      have hsorted' := h'.dropCommon
      rw [groupCommon_congr hfirst hkeys] at hsorted'
      rw [level_of_key_perm hkey hfirst hkeys hperm, if_pos hdeep,
        if_neg hconsumes,
        ih (h.dropCommon) _ hsorted' (hperm.map _), level_of_key hkey,
          if_pos hdeep,
        if_neg hconsumes]
    · intro path first entries hkey hflat ih h others h' hperm
      obtain ⟨first', entries', rfl, hfirst, hkeys⟩ := cons_of_perm h h' hperm
      rw [level_of_key_perm hkey hfirst hkeys hperm, if_neg hflat,
        ih h _ h' hperm,
        level_of_key hkey, if_neg hflat]
    · intro path _ others _ hperm
      rw [List.perm_nil.mp hperm]
    · intro path first entries hnil h others h' hperm
      obtain ⟨first', entries', rfl, hfirst, _⟩ := cons_of_perm h h' hperm
      rw [branches_of_nil hnil, branches_of_nil (hfirst.trans hnil)]
    · intro path first entries b key hkey group hmixed h others h' hperm
      obtain ⟨first', entries', rfl, hfirst, _⟩ := cons_of_perm h h' hperm
      have hgroup := (group_of_perm h h' hkey hfirst hperm).1
      rw [branches_of_key (hfirst.trans hkey),
        if_pos (isMixed_of_perm hgroup ▸ hmixed),
        branches_of_key hkey, if_pos hmixed]
    · exact fun _ _ _ _ _ hkey halike ihchild ihmore =>
        branchesSettled_cons hkey halike ihchild ihmore
  exact hlevels path entries h others h' hperm

/-- What is built, or why not, does not depend on the order of the entries. -/
theorem build_of_perm (hperm : others.Perm entries) :
    build name others = build name entries := by
  by_cases hne : entries = []
  · subst hne
    rw [List.perm_nil.mp hperm]
  · have hne' : others ≠ [] :=
      fun hnil => hne (List.nil_perm.mp (hnil ▸ hperm))
    have hsorted : (others.mergeSort keyLE).Perm (entries.mergeSort keyLE) :=
      (List.mergeSort_perm others keyLE).trans
        (hperm.trans (List.mergeSort_perm entries keyLE).symm)
    rw [build_of_ne_nil hne', build_of_ne_nil hne,
      level_of_perm (sorted_mergeSort entries)
        (sorted_mergeSort others) hsorted]

end Bytewise.Trie

/-
Tries of corresponding nodes.

How a trie branches is a matter of the keys alone: nodes are numbered
only in its leaves. Keyed edges that correspond one by one, in whatever
numbering, are built into tries that branch alike and whose leaves
correspond, or are refused for one cause (`build_agrees`).
-/
import Bytewise.Proofs.Except
import Bytewise.Proofs.Matching
import Bytewise.Proofs.Trie.Covers

namespace Bytewise

-- ============================================================= matching

/-- The entries have one key and lead to corresponding nodes. -/
structure TrieEntry.Matches (m : NodeId → NodeId → Prop) (e e' : TrieEntry) :
    Prop where
  key : e.key = e'.key
  target : m e.target e'.target
  noAdvance : e.noAdvance = e'.noAdvance
  value : e.value = e'.value

/-- The leaves lead to corresponding nodes. -/
structure TrieLeaf.Matches (m : NodeId → NodeId → Prop) (l l' : TrieLeaf) :
    Prop where
  target : m l.target l'.target
  value : l.value = l'.value

mutual

/-- The tries branch alike, and their leaves correspond. -/
inductive Trie.Matches (m : NodeId → NodeId → Prop) : Trie → Trie → Prop where
  | leaf {l l' : TrieLeaf} (leads : l.Matches m l') : Trie.Matches m (.leaf l)
      (.leaf l')
  | sequence {literal : List UInt8} {child child' : Trie}
      (below : Trie.Matches m child child') :
      Trie.Matches m (.sequence literal child) (.sequence literal child')
  | single {bs bs' : List (UInt8 × Bool × Trie)}
      {fallback fallback' : Option TrieLeaf}
      (below : Trie.BranchesMatch m bs bs')
      (ended : Option.Rel (TrieLeaf.Matches m) fallback fallback') :
      Trie.Matches m (.single bs fallback) (.single bs' fallback')

/-- The branches of two levels are of the same bytes, and match one by one. -/
inductive Trie.BranchesMatch (m : NodeId → NodeId → Prop) :
    List (UInt8 × Bool × Trie) → List (UInt8 × Bool × Trie) → Prop where
  | nil : Trie.BranchesMatch m [] []
  | cons {key : UInt8} {noAdvance : Bool} {child child' : Trie}
      {bs bs' : List (UInt8 × Bool × Trie)}
      (first : Trie.Matches m child child')
      (rest : Trie.BranchesMatch m bs bs') :
      Trie.BranchesMatch m ((key, noAdvance, child) :: bs)
        ((key, noAdvance, child') :: bs')

end

namespace Trie

variable {m : NodeId → NodeId → Prop}

/-- Fallbacks that match do so the other way round. -/
theorem rel_symm {fallback fallback' : Option TrieLeaf}
    (h : Option.Rel (TrieLeaf.Matches m) fallback fallback') :
    Option.Rel (TrieLeaf.Matches (flip m)) fallback' fallback := by
  cases h with
  | none => exact .none
  | some leads => exact .some ⟨leads.target, leads.value.symm⟩

mutual

theorem Matches.symm : ∀ {t t' : Trie}, t.Matches m t' → t'.Matches (flip m) t
  | _, _, .leaf leads => .leaf ⟨leads.target, leads.value.symm⟩
  | _, _, .sequence below => .sequence below.symm
  | _, _, .single below ended => .single below.symm (rel_symm ended)

theorem BranchesMatch.symm : ∀ {bs bs' : List (UInt8 × Bool × Trie)},
    BranchesMatch m bs bs' → BranchesMatch (flip m) bs' bs
  | _, _, .nil => .nil
  | _, _, .cons first rest => .cons first.symm rest.symm

end

/-- Branches that match are for the same bytes. -/
theorem BranchesMatch.bytes : ∀ {bs bs' : List (UInt8 × Bool × Trie)},
    BranchesMatch m bs bs' → bs.map (·.1) = bs'.map (·.1)
  | _, _, .nil => rfl
  | _, _, .cons _ rest => by
      rw [List.map_cons, List.map_cons, rest.bytes]

end Trie

-- ============================================================== entries

namespace TrieEntry

variable {m : NodeId → NodeId → Prop} {e e' first first' : TrieEntry}
  {entries entries' : List TrieEntry}

/-- Entries that match have leaves that do. -/
theorem Matches.leaf (h : e.Matches m e') : e.leaf.Matches m e'.leaf :=
  ⟨h.target, h.value⟩

/-- They match with the same front of their keys dropped. -/
theorem Matches.dropKey (h : e.Matches m e') (n : Nat) :
    (e.dropKey n).Matches m (e'.dropKey n) where
  key := congrArg (List.drop n) h.key
  target := h.target
  noAdvance := h.noAdvance
  value := h.value

theorem Matches.startsWith (h : e.Matches m e') (b : UInt8) :
    e.startsWith b = e'.startsWith b := by
  unfold TrieEntry.startsWith
  rw [h.key]

/-- Groups that correspond entry by entry have the same in common. -/
theorem groupCommon_eq (hfirst : first.Matches m first')
    (h : List.Forall₂ (Matches m) entries entries') :
    Trie.groupCommon first entries = Trie.groupCommon first' entries' := by
  have hlast : ∀ {e e' : TrieEntry}, e.Matches m e' →
      (entries.getLast?.getD e).key = (entries'.getLast?.getD e').key := by
    induction h with
    | nil => exact fun he => he.key
    | cons hhead _ ih =>
        intro e e' _
        rw [List.getLast?_cons, List.getLast?_cons]
        exact ih hhead
  unfold Trie.groupCommon
  rw [hfirst.key, hlast hfirst]

/-- What does not tell matching entries apart finds one in both lists or in
none. -/
theorem any_eq {p : TrieEntry → Bool}
    (hp : ∀ e e', e.Matches m e' → p e = p e')
    (h : List.Forall₂ (Matches m) entries entries') :
    entries.any p = entries'.any p := by
  induction h with
  | nil => rfl
  | cons hhead _ ih => rw [List.any_cons, List.any_cons, hp _ _ hhead, ih]

/-- Levels that match mix peeks and matches alike. -/
theorem isMixed_eq (hfirst : first.Matches m first')
    (h : List.Forall₂ (Matches m) entries entries') :
    Trie.isMixed first entries = Trie.isMixed first' entries' := by
  unfold Trie.isMixed
  rw [hfirst.noAdvance]
  exact any_eq (fun e e' he => by rw [he.noAdvance]) h

/-- Those that begin with a byte, and those behind them, correspond. -/
theorem forall₂_group (h : List.Forall₂ (Matches m) entries entries')
    (b : UInt8) :
    List.Forall₂ (Matches m) (entries.takeWhile (startsWith b))
      (entries'.takeWhile (startsWith b))
      ∧ List.Forall₂ (Matches m) (entries.dropWhile (startsWith b))
          (entries'.dropWhile (startsWith b)) := by
  induction h with
  | nil => exact ⟨.nil, .nil⟩
  | cons hhead hrest ih =>
      rw [List.takeWhile_cons, List.takeWhile_cons, List.dropWhile_cons,
        List.dropWhile_cons,
        hhead.startsWith b]
      split
      · exact ⟨.cons hhead ih.1, ih.2⟩
      · exact ⟨.nil, .cons hhead hrest⟩

/-- Lists that match do so with the fronts of their keys dropped. -/
theorem forall₂_dropKey (h : List.Forall₂ (Matches m) entries entries')
    (n : Nat) :
    List.Forall₂ (Matches m) (entries.map (dropKey n))
        (entries'.map (dropKey n)) := by
  induction h with
  | nil => exact .nil
  | cons hhead _ ih => exact .cons (hhead.dropKey n) ih

/-- Entries that correspond are sorted alike. -/
theorem forall₂_mergeSort (h : List.Forall₂ (Matches m) entries entries') :
    List.Forall₂ (Matches m) (entries.mergeSort keyLE)
        (entries'.mergeSort keyLE) :=
  mergeSort_of_forall₂ h fun e e' he o o' ho => by
    unfold keyLE
    rw [he.key, ho.key]

end TrieEntry

-- =============================================================== tries

namespace Trie

open TrieEntry

variable {m : NodeId → NodeId → Prop} {name : String}
  {path : List (List UInt8)} {first second : TrieEntry}
  {entries : List TrieEntry}

/-- Levels of corresponding entries agree. -/
private def LevelsAgree (m : NodeId → NodeId → Prop) (name : String)
    (path : List (List UInt8)) (entries : List TrieEntry) : Prop :=
  ∀ entries', List.Forall₂ (TrieEntry.Matches m) entries entries' →
    Agree (Trie.Matches m) (level name path entries) (level name path entries')

/-- Branches of corresponding entries agree. -/
private def BranchesAgree (m : NodeId → NodeId → Prop) (name : String)
    (path : List (List UInt8)) (entries : List TrieEntry) : Prop :=
  ∀ entries', List.Forall₂ (TrieEntry.Matches m) entries entries' →
    Agree (BranchesMatch m) (branches name path entries)
      (branches name path entries')

/-- A level with a key that ends there has a fallback. -/
private theorem level_of_ended (hended : first.key.isEmpty = true) :
    level name path (first :: second :: entries)
      = if path.isEmpty then .error (.emptyRootEntry name)
        else if second.key.isEmpty then .error (.duplicateEntry name path)
        else do
          return .single (← branches name path (second :: entries))
              (some first.leaf) := by
  rw [level.eq_def]
  dsimp only
  rw [if_pos hended]

/-- Levels with such a key agree if the others do. -/
private theorem levelsAgree_ended (hended : first.key.isEmpty = true)
    (ih : ¬ path.isEmpty = true → ¬ second.key.isEmpty = true →
      BranchesAgree m name path (second :: entries)) :
    LevelsAgree m name path (first :: second :: entries) := by
  intro entries' h
  cases h with
  | cons hfirst hrest =>
      cases hrest with
      | cons hsecond hmore =>
          rw [level_of_ended hended, level_of_ended (hfirst.key ▸ hended),
            ← hsecond.key]
          by_cases hpath : path.isEmpty = true
          · rw [if_pos hpath, if_pos hpath]
            exact .error _
          · rw [if_neg hpath, if_neg hpath]
            by_cases hkey : second.key.isEmpty = true
            · rw [if_pos hkey, if_pos hkey]
              exact .error _
            · rw [if_neg hkey, if_neg hkey]
              refine (ih hpath hkey _ (.cons hsecond hmore)).bind
                fun bs bs' hbs => ?_
              exact .ok (.single hbs (.some hfirst.leaf))

/-- Levels with a common front agree if what stands behind it does. -/
private theorem levelsAgree_deep (hkey : ¬ first.key.isEmpty = true)
    (hdeep : 1 < groupCommon first entries)
    (ih : ¬ (first.noAdvance || entries.any (·.noAdvance)) = true →
      LevelsAgree m name (path ++ [first.key.take (groupCommon first entries)])
        ((first :: entries).map
          (TrieEntry.dropKey (groupCommon first entries)))) :
    LevelsAgree m name path (first :: entries) := by
  intro entries' h
  cases h with
  | cons hfirst hmore =>
      have hmixed := any_eq (p := fun e => e.noAdvance)
        (fun e e' he => he.noAdvance) hmore
      rw [level_of_key hkey, level_of_key (hfirst.key ▸ hkey), ← groupCommon_eq
        hfirst hmore,
        ← hfirst.key, ← hfirst.noAdvance, ← hmixed, if_pos hdeep, if_pos hdeep]
      by_cases hpeek : (first.noAdvance || entries.any (·.noAdvance)) = true
      · rw [if_pos hpeek, if_pos hpeek]
        exact .error _
      · rw [if_neg hpeek, if_neg hpeek]
        refine (ih hpeek _ (forall₂_dropKey (.cons hfirst hmore) _)).bind
          fun child child' hchild => ?_
        exact .ok (.sequence hchild)

/-- Levels without one agree if their branches do. -/
private theorem levelsAgree_flat (hkey : ¬ first.key.isEmpty = true)
    (hflat : ¬ 1 < groupCommon first entries)
    (ih : BranchesAgree m name path (first :: entries)) :
    LevelsAgree m name path (first :: entries) := by
  intro entries' h
  cases h with
  | cons hfirst hmore =>
      rw [level_of_key hkey, level_of_key (hfirst.key ▸ hkey), ← groupCommon_eq
        hfirst hmore, if_neg hflat, if_neg hflat]
      refine (ih _ (.cons hfirst hmore)).bind fun bs bs' hbs => ?_
      exact .ok (.single hbs .none)

/-- Branches agree if the first one does and the rest do. -/
private theorem branchesAgree_cons {b : UInt8} {key : List UInt8}
    (hkey : first.key = b :: key)
    (ih : ¬ isMixed first (entries.takeWhile (startsWith b)) = true →
      LevelsAgree m name (path ++ [[b]])
          ((first :: entries.takeWhile (startsWith b)).map
            (TrieEntry.dropKey 1))
        ∧ BranchesAgree m name path (entries.dropWhile (startsWith b))) :
    BranchesAgree m name path (first :: entries) := by
  intro entries' h
  cases h with
  | cons hfirst hmore =>
      obtain ⟨hgroup, hothers⟩ := forall₂_group hmore b
      rw [branches_of_key hkey, branches_of_key (hfirst.key ▸ hkey),
        ← isMixed_eq hfirst hgroup]
      by_cases hmixed : isMixed first (entries.takeWhile (startsWith b)) = true
      · rw [if_pos hmixed, if_pos hmixed]
        exact .error _
      · rw [if_neg hmixed, if_neg hmixed]
        obtain ⟨ihchild, ihmore⟩ := ih hmixed
        refine (ihchild _ (forall₂_dropKey (.cons hfirst hgroup) 1)).bind
          fun child child' hchild => ?_
        refine (ihmore _ hothers).bind fun bs bs' hbs => ?_
        rw [← hfirst.noAdvance]
        exact .ok (.cons hchild hbs)

/-- Entries that correspond have levels that do. -/
theorem level_agrees {entries' : List TrieEntry}
    (h : List.Forall₂ (TrieEntry.Matches m) entries entries') :
    Agree (Trie.Matches m) (level name path entries)
        (level name path entries') := by
  have hlevels : ∀ path entries, LevelsAgree m name path entries := by
    refine level.induct (LevelsAgree m name) (BranchesAgree m name) ?_ ?_ ?_ ?_
      ?_ ?_ ?_ ?_ ?_ ?_ ?_ ?_
    · intro path entries' h
      cases h
      rw [level]
      exact .ok (.single .nil .none)
    · intro path entry hended entries' h
      cases h with
      | cons hfirst hrest =>
          cases hrest
          rw [level, if_pos hended, level, if_pos (hfirst.key ▸ hended)]
          exact .ok (.leaf hfirst.leaf)
    · exact fun path first hended second entries hpath =>
        levelsAgree_ended hended
        fun hnot => absurd hpath hnot
    · exact fun path first hended second entries hpath hsecond =>
        levelsAgree_ended hended
        fun _ hnot => absurd hsecond hnot
    · exact fun path first hended second entries _ _ ih =>
        levelsAgree_ended hended
        fun _ _ => ih
    · exact fun path first entries hkey hdeep hpeek =>
        levelsAgree_deep hkey hdeep
        fun hnot => absurd hpeek hnot
    · exact fun path first entries hkey hdeep _ ih => levelsAgree_deep hkey
        hdeep fun _ => ih
    · exact fun path first entries hkey hflat ih => levelsAgree_flat
        hkey hflat ih
    · intro path entries' h
      cases h
      rw [branches]
      exact .ok .nil
    · intro path first entries hnil entries' h
      cases h with
      | cons hfirst hrest =>
          rw [branches_of_nil hnil, branches_of_nil (hfirst.key ▸ hnil)]
          exact .ok .nil
    · exact fun path first entries b key hkey hmixed => branchesAgree_cons hkey
        fun hnot => absurd hmixed hnot
    · exact fun path first entries b key hkey _ ihchild ihmore =>
        branchesAgree_cons hkey
        fun _ => ⟨ihchild, ihmore⟩
  exact hlevels path entries entries' h

/-- Keyed edges that correspond are built into tries that match, or are refused
alike. -/
theorem build_agrees {entries' : List TrieEntry}
    (h : List.Forall₂ (TrieEntry.Matches m) entries entries') :
    Agree (Option.Rel (Trie.Matches m)) (build name entries)
        (build name entries') := by
  cases h with
  | nil => exact .ok .none
  | cons hfirst hrest =>
      exact (level_agrees (forall₂_mergeSort (.cons hfirst hrest))).bind
        fun t t' ht => .ok (.some ht)

end Trie

end Bytewise

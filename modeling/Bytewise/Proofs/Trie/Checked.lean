/-
Building with every index checked.

`level` takes apart lists, so it cannot read what is not there. Here each
level is run as a program over indices that stops at one that is out of
range: it reads the first and the last entry, the front of a key, drops
bytes off keys that may be too short, collects its groups one entry at a
time, and asks for the levels below it until no more are allowed. Such a
program never stops at an index, needs no more levels than there are
bytes, and answers what `build` does (`buildWithin_eq`), so what is known
of `build` is known of it: `trie_of_entries` puts that together.
-/
import Mathlib.Algebra.BigOperators.Group.List.Basic
import Bytewise.Proofs.Trie.Order

namespace Bytewise

/-- Why a checked program stops. -/
inductive Fault where
  /-- An index is out of range. -/
  | outOfRange
  /-- More levels would be needed than are allowed. -/
  | tooDeep
  /-- The entries are refused. -/
  | refused (cause : Cause)
deriving DecidableEq, Repr

namespace Trie

open TrieEntry

variable {α β : Type} {name : String} {path : List (List UInt8)}
  {entries : List TrieEntry}

-- ============================================================= program

/-- The element at an index. -/
def readAt (xs : List α) (i : Nat) : Except Fault α :=
  match xs[i]? with
  | some x => .ok x
  | none => .error .outOfRange

/-- The first `n` bytes of a key. -/
def readFront (n : Nat) (key : List UInt8) : Except Fault (List UInt8) :=
  if n ≤ key.length then .ok (key.take n) else .error .outOfRange

/-- The entries with `n` bytes taken off each key. -/
def dropFront (n : Nat) (entries : List TrieEntry) :
    Except Fault (List TrieEntry) :=
  entries.mapM fun entry =>
    if n ≤ entry.key.length then .ok (entry.dropKey n) else .error .outOfRange

/-- Puts an entry at the end of the group of its first byte; groups are
ascending. -/
def putGroup (b : UInt8) (entry : TrieEntry) :
    List (UInt8 × List TrieEntry) → List (UInt8 × List TrieEntry)
  | [] => [(b, [entry])]
  | (c, group) :: groups =>
    if b = c then (c, group ++ [entry]) :: groups
    else if b < c then (b, [entry]) :: (c, group) :: groups
    else (c, group) :: putGroup b entry groups

/-- An entry whose key has ended is in no group. -/
def putEntry (groups : List (UInt8 × List TrieEntry)) (entry : TrieEntry) :
    List (UInt8 × List TrieEntry) :=
  match entry.key with
  | [] => groups
  | b :: _ => putGroup b entry groups

/-- The entries by their first bytes. -/
def groups (entries : List TrieEntry) : List (UInt8 × List TrieEntry) :=
  entries.foldl putEntry []

section Level

variable (name : String)
  (below : List (List UInt8) → List TrieEntry → Except Fault Trie)
  (path : List (List UInt8))

/-- The branch of a group. -/
def checkedBranch (group : UInt8 × List TrieEntry) :
    Except Fault (UInt8 × Bool × Trie) := do
  let path' := path ++ [[group.1]]
  let head ← readAt group.2 0
  if group.2.any fun entry => entry.noAdvance != head.noAdvance then
    .error (.refused (.peekMatchConflict name path'))
  else do
    let child ← below path' (← dropFront 1 group.2)
    return (group.1, head.noAdvance, child)

/-- A key may end below the root, and only one may end in a place. -/
def checkEnded (entries : List TrieEntry) : Except Fault Unit := do
  let first ← readAt entries 0
  if first.key.isEmpty then
    if path.isEmpty then .error (.refused (.emptyRootEntry name))
    else if 1 < entries.length then do
      let second ← readAt entries 1
      if second.key.isEmpty then .error (.refused (.duplicateEntry name path))
      else .ok ()
    else .ok ()
  else .ok ()

/-- A level that branches on one byte; the last key that ends here is the
fallback. -/
def checkedSingle (entries : List TrieEntry) : Except Fault Trie := do
  checkEnded name path entries
  let bs ← (groups entries).mapM (checkedBranch name below path)
  return .single bs
    ((entries.filter (·.key.isEmpty)).getLast?.map TrieEntry.leaf)

/-- A level that compares `literal`. -/
def checkedSequence (literal : List UInt8) (entries : List TrieEntry) :
    Except Fault Trie :=
  if entries.any (·.noAdvance) then
    .error (.refused (.peekMatchConflict name path))
  else do
    let child ← below (path ++ [literal]) (← dropFront literal.length entries)
    return .sequence literal child

/-- One level; those below it are asked of `below`. -/
def checkedLevel (entries : List TrieEntry) : Except Fault Trie := do
  let first ← readAt entries 0
  if entries.length = 1 ∧ first.key.isEmpty then return .leaf first.leaf
  else do
    let last ← readAt entries (entries.length - 1)
    let common := commonLength first.key last.key
    if 1 < common then do
      checkedSequence name below path (← readFront common first.key) entries
    else checkedSingle name below path entries

end Level

/-- A level with at most so many levels below each other. -/
def levelWithin (name : String) :
    Nat → List (List UInt8) → List TrieEntry → Except Fault Trie
  | 0, _, _ => .error .tooDeep
  | depth + 1, path, entries =>
    checkedLevel name (levelWithin name depth) path entries

/-- The trie of the keyed edges of the node `name`, with at most so many
levels. -/
def buildWithin (depth : Nat) (name : String) (entries : List TrieEntry) :
    Except Fault (Option Trie) :=
  match entries with
  | [] => .ok none
  | entries => some <$> levelWithin name depth [] (entries.mergeSort keyLE)

-- ============================================================= indices

private theorem ok_bind (a : α) (f : α → Except Fault β) :
    (Except.ok a >>= f) = f a :=
  rfl

theorem readAt_head (first : TrieEntry) (entries : List TrieEntry) :
    readAt (first :: entries) 0 = .ok first :=
  rfl

theorem readAt_last (first : TrieEntry) (entries : List TrieEntry) :
    readAt (first :: entries) ((first :: entries).length - 1)
      = .ok (entries.getLast?.getD first) := by
  unfold readAt
  rw [← List.getLast?_eq_getElem?, List.getLast?_cons]

/-- A front that all keys have can be dropped. -/
theorem dropFront_ok {n : Nat} (h : ∀ e ∈ entries, n ≤ e.key.length) :
    dropFront n entries = .ok (entries.map (dropKey n)) := by
  unfold dropFront
  induction entries with
  | nil => rfl
  | cons entry entries ih =>
      rw [List.mapM_cons, if_pos (h entry List.mem_cons_self),
        ih fun e he => h e (List.mem_cons_of_mem _ he)]
      rfl

theorem dropFront_of_prefix {word : List UInt8}
    (h : ∀ e ∈ entries, word <+: e.key) :
    dropFront word.length entries = .ok (entries.map (dropKey word.length)) :=
  dropFront_ok fun e he => (h e he).length_le

-- ============================================================== groups

variable {b : UInt8}

/-- Entries with the byte of the only group are put to it. -/
theorem foldl_putEntry_same {group : List TrieEntry}
    (h : ∀ e ∈ entries, [b] <+: e.key) :
    entries.foldl putEntry [(b, group)] = [(b, group ++ entries)] := by
  induction entries generalizing group with
  | nil => simp
  | cons entry entries ih =>
      obtain ⟨key, hkey⟩ := h entry List.mem_cons_self
      have hput : putEntry [(b, group)] entry = [(b, group ++ [entry])] := by
        unfold putEntry
        rw [← hkey]
        exact if_pos rfl
      rw [List.foldl_cons, hput, ih fun e he =>
        h e (List.mem_cons_of_mem _ he),
        List.append_assoc]
      rfl

/-- Entries with later bytes leave the first group alone. -/
theorem foldl_putEntry_later {group : List TrieEntry}
    {gs : List (UInt8 × List TrieEntry)}
    (h : ∀ e ∈ entries, ∃ c key, e.key = c :: key ∧ b < c) :
    entries.foldl putEntry ((b, group) :: gs) = (b, group) :: entries.foldl
        putEntry gs := by
  induction entries generalizing gs with
  | nil => rfl
  | cons entry entries ih =>
      obtain ⟨c, key, hkey, hlt⟩ := h entry List.mem_cons_self
      have hput : ∀ gs, putEntry gs entry = putGroup c entry gs := by
        intro gs
        unfold putEntry
        rw [hkey]
      have hne : c ≠ b := by
        rintro rfl
        exact UInt8.lt_irrefl c hlt
      have hbehind : putGroup c entry ((b, group) :: gs) = (b, group)
          :: putGroup c entry gs := by
        rw [putGroup, if_neg hne, if_neg (UInt8.lt_asymm hlt)]
      rw [List.foldl_cons, List.foldl_cons, hput, hput, hbehind,
        ih fun e he => h e (List.mem_cons_of_mem _ he)]

/-- An entry whose key ends makes no group. -/
theorem groups_of_ended {first : TrieEntry} (hended : first.key = []) :
    groups (first :: entries) = groups entries := by
  unfold groups
  rw [List.foldl_cons, putEntry, hended]

/-- The groups of sorted entries are found one behind the other. -/
theorem groups_cons {first : TrieEntry} {key : List UInt8}
    (h : Sorted (first :: entries)) (hkey : first.key = b :: key) :
    groups (first :: entries) = (b, first :: entries.takeWhile (startsWith b))
      :: groups (entries.dropWhile (startsWith b)) := by
  have hfirst : putEntry [] first = [(b, [first])] := by
    unfold putEntry
    rw [hkey]
    rfl
  have hgroup : ∀ e ∈ entries.takeWhile (startsWith b), [b] <+: e.key :=
    fun e he => begins_of_group hkey e (List.mem_cons_of_mem _ he)
  have hlater : ∀ e ∈ entries.dropWhile (startsWith b), ∃ c key,
      e.key = c :: key ∧ b < c := by
    intro e he
    have hne : first.key ≠ [] := by
      rw [hkey]
      exact List.cons_ne_nil b key
    have hmem :=
      List.mem_cons_of_mem first ((List.dropWhile_sublist _).subset he)
    obtain ⟨c, k, hk⟩ :=
      List.ne_nil_iff_exists_cons.mp (h.keys_ne_nil hne e hmem)
    exact ⟨c, k, hk, h.lt_of_behind hkey he (startsWith_iff.mpr ⟨k, hk⟩)⟩
  unfold groups
  conv_lhs =>
    rw [← List.takeWhile_append_dropWhile (p := startsWith b) (l := entries)]
  rw [List.foldl_cons, hfirst, List.foldl_append, foldl_putEntry_same hgroup,
    foldl_putEntry_later hlater]
  rfl

-- ============================================================== levels

/-- Levels lighter than `bound` are answered as they should be. -/
def AnswersBelow (name : String) (bound : Nat)
    (below : List (List UInt8) → List TrieEntry → Except Fault Trie) : Prop :=
  ∀ path entries, Sorted entries → entries ≠ [] → weight entries < bound →
    below path entries = (level name path entries).mapError Fault.refused

variable {below : List (List UInt8) → List TrieEntry → Except Fault Trie}
  {first : TrieEntry}

theorem AnswersBelow.mono {bound bound' : Nat}
    (h : AnswersBelow name bound below)
    (hle : bound' ≤ bound) : AnswersBelow name bound' below :=
  fun path entries hsorted hne hlt => h path entries hsorted hne
    (Nat.lt_of_lt_of_le hlt hle)

/-- The branch of the first group. -/
private theorem checkedBranch_eq {key : List UInt8}
    (h : Sorted (first :: entries)) (hkey : first.key = b :: key)
    (hbelow : AnswersBelow name (weight (first :: entries)) below) :
    checkedBranch name below path
      (b, first :: entries.takeWhile (startsWith b))
      = if isMixed first (entries.takeWhile (startsWith b)) then
          .error (.refused (.peekMatchConflict name (path ++ [[b]])))
        else do
          let child ← (level name (path ++ [[b]])
            ((first :: entries.takeWhile (startsWith b)).map
              (dropKey 1))).mapError Fault.refused
          return (b, first.noAdvance, child) := by
  have hmixed : ((first :: entries.takeWhile (startsWith b)).any
      fun entry => entry.noAdvance != first.noAdvance)
      = isMixed first (entries.takeWhile (startsWith b)) := by
    rw [List.any_cons, bne_self_eq_false, Bool.false_or]
    rfl
  have hweight : weight
      ((first :: entries.takeWhile (startsWith b)).map (dropKey 1))
      < weight (first :: entries) := by
    have hdrop := weight_dropKey_lt (n := 1)
      (by omega) first (entries.takeWhile (startsWith b))
      (by simp [hkey])
    have htake := weight_takeWhile_le (startsWith b) entries
    simp only [weight_cons] at hdrop ⊢
    omega
  have hchild := hbelow (path ++ [[b]]) _ (h.dropFirst hkey)
    (List.cons_ne_nil _ _) hweight
  have hdrop : dropFront 1 (first :: entries.takeWhile (startsWith b))
      = .ok ((first :: entries.takeWhile (startsWith b)).map (dropKey 1)) :=
    dropFront_of_prefix (begins_of_group hkey)
  unfold checkedBranch
  simp only [readAt_head, ok_bind, hmixed, hdrop, hchild]

/-- The branches of sorted entries whose keys go on, group by group. -/
private theorem checkedBranches_eq (h : Sorted entries)
    (hkeys : ∀ e ∈ entries, e.key ≠ [])
    (hbelow : AnswersBelow name (weight entries) below) :
    (groups entries).mapM (checkedBranch name below path)
      = (branches name path entries).mapError Fault.refused := by
  induction hn : entries.length using Nat.strong_induction_on
      generalizing entries with
  | _ n ih =>
      cases entries with
      | nil =>
          rw [branches]
          rfl
      | cons first entries =>
          obtain ⟨b, key, hkey⟩ :=
            List.ne_nil_iff_exists_cons.mp (hkeys first List.mem_cons_self)
          have hothers : (entries.dropWhile (startsWith b)).Sublist
              (first :: entries) :=
            (List.dropWhile_sublist _).trans (List.sublist_cons_self _ _)
          have hlen :=
            (List.dropWhile_sublist (l := entries) (startsWith b)).length_le
          have hweight := weight_dropWhile_le (startsWith b) entries
          rw [List.length_cons] at hn
          have hmore := ih _ (by omega) (h.sublist hothers)
            (fun e he => hkeys e (hothers.subset he))
            (hbelow.mono (by rw [weight_cons]; omega)) rfl
          rw [groups_cons h hkey, List.mapM_cons, checkedBranch_eq h hkey
            hbelow, hmore, branches_of_key hkey]
          split
          · rfl
          · cases level name (path ++ [[b]])
              ((first :: entries.takeWhile (startsWith b)).map (dropKey 1))
                  with
            | error cause => rfl
            | ok child =>
                cases branches name path (entries.dropWhile (startsWith b))
                  <;> rfl

/-- A level that compares what its keys have in common. -/
private theorem checkedSequence_eq (h : Sorted (first :: entries))
    (hdeep : 1 < groupCommon first entries)
    (hbelow : AnswersBelow name (weight (first :: entries)) below) :
    checkedSequence name below path
      (first.key.take (groupCommon first entries)) (first :: entries)
      = if first.noAdvance || entries.any (·.noAdvance) then
          .error (.refused (.peekMatchConflict name path))
        else do
          let child
            ← (level name
            (path ++ [first.key.take (groupCommon first entries)])
            ((first :: entries).map
              (dropKey (groupCommon first entries)))).mapError Fault.refused
          return .sequence (first.key.take (groupCommon first entries))
              child := by
  have hpos : 0 < first.key.length :=
    Nat.lt_of_lt_of_le (Nat.lt_trans Nat.zero_lt_one hdeep)
      (commonLength_le _ _)
  have hweight : weight
      ((first :: entries).map (dropKey (groupCommon first entries)))
      < weight (first :: entries) :=
    weight_dropKey_lt (Nat.lt_trans Nat.zero_lt_one hdeep) first entries hpos
  have hdrop := dropFront_of_prefix (groupCommon_begins h)
  rw [length_common] at hdrop
  unfold checkedSequence
  rw [length_common, List.any_cons]
  simp only [hdrop, ok_bind,
    hbelow (path ++ [_]) _ h.dropCommon (List.cons_ne_nil _ _) hweight]

/-- Where no key ends, none is found that does. -/
private theorem filter_ended (hkeys : ∀ e ∈ entries, e.key ≠ []) :
    entries.filter (·.key.isEmpty) = [] :=
  List.filter_eq_nil_iff.mpr fun e he hended =>
    hkeys e he (List.isEmpty_iff.mp hended)

/-- A level whose keys go on branches on their first bytes. -/
private theorem checkedSingle_of_key (h : Sorted (first :: entries))
    (hkey : ¬ first.key.isEmpty = true)
    (hbelow : AnswersBelow name (weight (first :: entries)) below) :
    checkedSingle name below path (first :: entries)
      = (do
          let bs ← branches name path (first :: entries)
          return .single bs none : Except Cause Trie).mapError
              Fault.refused := by
  have hkeys := h.keys_ne_nil fun hnil => hkey (List.isEmpty_iff.mpr hnil)
  have hnone := filter_ended hkeys
  have hcheck : checkEnded name path (first :: entries) = .ok () := by
    unfold checkEnded
    rw [readAt_head, ok_bind, if_neg hkey]
  unfold checkedSingle
  rw [hcheck, ok_bind, checkedBranches_eq h hkeys hbelow, hnone]
  cases branches name path (first :: entries) <;> rfl

/-- A level whose first key has ended, with others that go on or are
refused. -/
private theorem checkedSingle_of_ended {second : TrieEntry}
    (h : Sorted (first :: second :: entries))
    (hended : first.key.isEmpty = true)
    (hbelow : AnswersBelow name (weight (first :: second :: entries)) below) :
    checkedSingle name below path (first :: second :: entries)
      = (level name path (first :: second :: entries)).mapError
          Fault.refused := by
  have hcheck : checkEnded name path (first :: second :: entries)
      = if path.isEmpty then .error (.refused (.emptyRootEntry name))
        else if second.key.isEmpty then
          .error (.refused (.duplicateEntry name path))
        else .ok () := by
    unfold checkEnded
    rw [readAt_head, ok_bind, if_pos hended]
    rfl
  unfold checkedSingle
  rw [hcheck, level, if_pos hended]
  by_cases hpath : path.isEmpty = true
  · rw [if_pos hpath, if_pos hpath]
    rfl
  · rw [if_neg hpath, if_neg hpath]
    by_cases hsecond : second.key.isEmpty = true
    · rw [if_pos hsecond, if_pos hsecond]
      rfl
    · have hmore : Sorted (second :: entries) := (List.pairwise_cons.mp h).2
      have hkeys :=
        hmore.keys_ne_nil fun hnil => hsecond (List.isEmpty_iff.mpr hnil)
      have honly : (first :: second :: entries).filter (·.key.isEmpty)
          = [first] := by
        rw [List.filter_cons, if_pos hended, filter_ended hkeys]
      have hlight : weight (second :: entries)
          ≤ weight (first :: second :: entries) := by
        rw [weight_cons first]
        omega
      rw [if_neg hsecond, if_neg hsecond, ok_bind,
        groups_of_ended (List.isEmpty_iff.mp hended),
        checkedBranches_eq hmore hkeys (hbelow.mono hlight), honly]
      cases branches name path (second :: entries) <;> rfl

/-- One level answers what it should if those below it do. -/
theorem checkedLevel_eq (h : Sorted (first :: entries))
    (hbelow : AnswersBelow name (weight (first :: entries)) below) :
    checkedLevel name below path (first :: entries)
      = (level name path (first :: entries)).mapError Fault.refused := by
  unfold checkedLevel
  rw [readAt_head, ok_bind, readAt_last, ok_bind]
  by_cases hended : first.key.isEmpty = true
  · have hflat : commonLength first.key ((entries.getLast?.getD first).key)
        = 0 := by
      rw [List.isEmpty_iff.mp hended]
      unfold commonLength
      rfl
    cases entries with
    | nil =>
        rw [if_pos ⟨rfl, hended⟩, level, if_pos hended]
        rfl
    | cons second entries =>
        rw [if_neg (by simp), hflat]
        exact checkedSingle_of_ended h hended hbelow
  · rw [if_neg (fun hboth => hended hboth.2), level_of_key hended]
    show (if 1 < groupCommon first entries then _ else _) = _
    by_cases hdeep : 1 < groupCommon first entries
    · have hfront : readFront (groupCommon first entries) first.key
          = .ok (first.key.take (groupCommon first entries)) :=
        if_pos (commonLength_le _ _)
      rw [if_pos hdeep, if_pos hdeep]
      show readFront (groupCommon first entries) first.key >>= _ = _
      rw [hfront, ok_bind, checkedSequence_eq h hdeep hbelow]
      split
      · rfl
      · cases level name (path ++ [first.key.take (groupCommon first entries)])
          ((first :: entries).map (dropKey (groupCommon first entries)))
          <;> rfl
    · rw [if_neg hdeep, if_neg hdeep]
      exact checkedSingle_of_key h hended hbelow

/-- With more levels than there are bytes, none is missing. -/
theorem levelWithin_eq {depth : Nat} (h : Sorted entries) (hne : entries ≠ [])
    (hdepth : weight entries < depth) :
    levelWithin name depth path entries = (level name path entries).mapError
        Fault.refused := by
  induction depth generalizing path entries with
  | zero => exact absurd hdepth (Nat.not_lt_zero _)
  | succ depth ih =>
      obtain ⟨first, entries, rfl⟩ := List.ne_nil_iff_exists_cons.mp hne
      rw [levelWithin]
      refine checkedLevel_eq h fun path es hsorted hne hlt => ih hsorted hne ?_
      omega

/-- The weight of a level is the sum of the lengths of its keys. -/
theorem weight_eq_sum (entries : List TrieEntry) :
    weight entries = (entries.map (·.key.length)).sum := by
  induction entries with
  | nil => rfl
  | cons entry entries ih => rw [weight_cons, ih, List.map_cons, List.sum_cons]

/-- Building with every index checked answers what building does, with no more
levels than there are bytes. -/
theorem buildWithin_eq {depth : Nat} (hdepth : weight entries < depth) :
    buildWithin depth name entries = (build name entries).mapError
        Fault.refused := by
  by_cases hne : entries = []
  · subst hne
    rfl
  · have hperm := List.mergeSort_perm entries keyLE
    have hsorted : weight (entries.mergeSort keyLE) < depth := by
      rw [weight_eq_sum, (hperm.map _).sum_eq, ← weight_eq_sum]
      exact hdepth
    have hbuild : buildWithin depth name entries
        = some <$> levelWithin name depth [] (entries.mergeSort keyLE) := by
      unfold buildWithin
      split
      · exact absurd rfl hne
      · rfl
    have hne' : entries.mergeSort keyLE ≠ [] := fun hnil =>
      hne (List.nil_perm.mp (hnil ▸ hperm))
    rw [hbuild, build_of_ne_nil hne, levelWithin_eq (sorted_mergeSort entries)
      hne' hsorted]
    cases level name [] (entries.mergeSort keyLE) <;> rfl

-- ============================================================= entries

/-- The trie of a node is its list of keyed edges. Building reads nothing out
of range and ends, and it is refused exactly if two edges clash. What is built
is in form, its leaves are the edges, each once and no key twice, and neither
it nor a refusal depends on their order. -/
theorem trie_of_entries (name : String) (entries : List TrieEntry)
    (hkeys : ∀ e ∈ entries, e.key ≠ [])
    (hpeeks : ∀ e ∈ entries, e.noAdvance = true → e.key.length = 1) :
    (∀ depth, weight entries < depth →
        buildWithin depth name entries = (build name entries).mapError
          Fault.refused)
      ∧ ((∃ cause, build name entries = .error cause)
          ↔ ∃ i j : Fin entries.length, i ≠ j
            ∧ (entries.get i).Clash (entries.get j))
      ∧ (build name entries = .ok none ↔ entries = [])
      ∧ (∀ t, build name entries = .ok (some t) →
          t.leaves.Perm entries ∧ (t.leaves.map (·.key)).Nodup ∧ Formed t)
      ∧ ∀ others, others.Perm entries →
          build name others = build name entries := by
  have hshort : ShortPeeks entries :=
    fun e he hpeek => Nat.le_of_eq (hpeeks e he hpeek)
  refine ⟨fun depth hdepth => buildWithin_eq hdepth, refused_iff hkeys hpeeks,
    build_eq_none_iff,
    fun t hok => ?_, fun others hperm => build_of_perm hperm⟩
  obtain ⟨hascending, hleaves⟩ := leaves_of_build hkeys hshort hok
  rw [hleaves]
  refine ⟨List.mergeSort_perm entries keyLE, List.pairwise_map.mpr
    (hascending.imp ?_),
    formed_of_build (distinct_of_build hkeys hshort hok) hok⟩
  intro e o hlt hsame
  rw [hsame] at hlt
  exact List.lt_irrefl _ hlt

/-- A byte that stays unread, and two keys that go on alike for two bytes. -/
theorem trie_of_three_entries :
    let entries : List TrieEntry :=
      [⟨[72, 84, 49], 1, false, none⟩, ⟨[97], 2, true, none⟩,
        ⟨[72, 84, 50], 3, false, some 7⟩]
    ∃ t, build "start" entries = .ok (some t) ∧ t.leaves.Perm entries
        ∧ Formed t := by
  intro entries
  obtain ⟨-, hrefused, hnone, hbuilt, -⟩ :=
    trie_of_entries "start" entries (by decide) (by decide)
  have hapart : ¬ ∃ i j : Fin entries.length, i ≠ j
    ∧ (entries.get i).Clash (entries.get j) := by decide
  cases hbuild : build "start" entries with
  | error cause => exact absurd (hrefused.mp ⟨cause, hbuild⟩) hapart
  | ok built =>
      cases built with
      | none => exact absurd (hnone.mp hbuild) (List.cons_ne_nil _ _)
      | some t =>
          obtain ⟨hperm, -, hformed⟩ := hbuilt t hbuild
          exact ⟨t, rfl, hperm, hformed⟩

end Trie

end Bytewise

/-
Tries of twins.

Tries that match become the same states, visit by visit. With different
options a level may be a table on one side and branches on the other. The
table visits each target once, where it first occurs, and the branches
visit it again and again; but a visit of what is entered changes nothing,
so both sides are level after each first visit (`tableEdges_agrees`). They
choose alike on every byte, since no byte has two branches.
-/
import Bytewise.Proofs.Parser.Succeeds
import Bytewise.Proofs.Parser.Twins
import Bytewise.Proofs.Trie.Matching

namespace Bytewise.Assembly

open Blueprint (TableGroup addToGroups groupBranches tableEdges)

variable {swaps : Prop} {m : NodeId → NodeId → Prop} {bp bp' : Blueprint}
  {visit visit' : NodeId → Assemble StateId} {depth depth' : Nat}
  {a a' : Assembly}

/-- There is depth left to enter all nodes, and more. -/
structure DepthLeft (depth depth' : Nat) (a a' : Assembly) : Prop where
  left : a.unentered < depth
  right : a'.unentered < depth'

/-- The depth that is left lasts as assemblies go on. -/
theorem DepthLeft.onward {b b' : Assembly} (h : DepthLeft depth depth' a a')
    (hon : Onward a b) (hon' : Onward a' b') : DepthLeft depth depth' b b' :=
  ⟨Nat.lt_of_le_of_lt hon.unentered h.left, Nat.lt_of_le_of_lt
    hon'.unentered h.right⟩

theorem DepthLeft.symm (h : DepthLeft depth depth' a a') :
    DepthLeft depth' depth a' a :=
  ⟨h.right, h.left⟩

/-- Two ways to visit nodes agree on matched ones, as long as there is depth
left, and do nothing on nodes that are entered. -/
structure VisitsAgree (swaps : Prop) (m : NodeId → NodeId → Prop)
    (depth depth' : Nat)
    (visit visit' : NodeId → Assemble StateId) : Prop where
  agree : ∀ n n' a a', m n n' → Twins swaps m a a' →
    DepthLeft depth depth' a a' →
    Agrees swaps m (visit n) a (visit' n') a' fun s b s' _ => s = s'
      ∧ b.stateOf? n = some s
  again : ∀ n a s, a.stateOf? n = some s → (visit n).run a = .ok (s, a)
  again' : ∀ n a s, a.stateOf? n = some s → (visit' n).run a = .ok (s, a)

theorem VisitsAgree.symm (h : VisitsAgree swaps m depth depth' visit visit') :
    VisitsAgree swaps (flip m) depth' depth visit' visit where
  agree n' n a' a hm htwins hdepth := by
    refine (h.agree n n' a a' hm htwins.symm hdepth.symm).symm.mono
      fun s' b' s b hb _ _ hpost => ?_
    obtain ⟨rfl, hentered⟩ := hpost
    exact ⟨rfl, (hb.entered n' n hm).trans hentered⟩
  again := h.again'
  again' := h.again

-- ============================================================== tables

/-- The state entered for a node. -/
def landing (a : Assembly) (n : NodeId) : StateId :=
  (a.stateOf? n).getD 0

/-- The edge of a table for a group. -/
def groupEdge (land : NodeId → StateId) (group : TableGroup) : Machine.Edge :=
  ⟨some (.bytes group.keys), land group.target, group.noAdvance, none⟩

/-- The edge of a branch that is a leaf. -/
def leafEdge (land : NodeId → StateId) (l : UInt8 × Bool × NodeId) :
    Machine.Edge :=
  ⟨some (.byte l.1), land l.2.2, l.2.1, none⟩

/-- A node that has its state is landed on there. -/
private theorem landing_eq {n : NodeId} {s : StateId}
    (h : a.stateOf? n = some s) :
    a.landing n = s := by
  unfold landing
  rw [h]
  rfl

/-- The edges of a table are made group by group. -/
private theorem tableEdges_cons (group : TableGroup)
    (groups : List TableGroup) :
    tableEdges visit (group :: groups) = (do
      let target ← visit group.target
      let edges ← tableEdges visit groups
      return ⟨some (.bytes group.keys), target, group.noAdvance, none⟩
          :: edges) := by
  unfold tableEdges
  simp only [List.mapM_cons, bind_assoc, pure_bind]

/-- A branch to a leaf leads on to its target. -/
private theorem branches_leaf (owner : Blueprint.Owner) (key : UInt8)
    (noAdvance : Bool) (leaf : TrieLeaf) (rest : List (UInt8 × Bool × Trie)) :
    bp.branches visit owner ((key, noAdvance, .leaf leaf) :: rest) = (do
      let target ← visit leaf.target
      let (edges, more) ← bp.branches visit owner rest
      return (⟨some (.byte key), target, noAdvance, leaf.value⟩ :: edges,
          more)) := by
  rw [Blueprint.branches, Blueprint.trie]
  simp only [bind_assoc, pure_bind]
  rfl

/-- A table visits what the branches visit, where it first occurs. -/
private theorem tableEdges_agrees
    (hvisit : VisitsAgree swaps m depth depth' visit visit')
    {owner' : Blueprint.Owner} {ls : List (UInt8 × Bool × NodeId)}
    {bs' : List (UInt8 × Bool × Trie)} {groups : List TableGroup}
    {seen : List NodeId} (hbs : Trie.BranchesMatch m (leaves ls) bs')
    (hgroups : groups.map (·.target) = firsts seen (ls.map (·.2.2)))
    (h : Twins swaps m a a') (hseen : ∀ n ∈ seen, ∃ s, a.stateOf? n = some s)
    (hdepth : DepthLeft depth depth' a a') :
    Agrees swaps m (tableEdges visit groups) a
      (bp'.branches visit' owner' bs') a'
      fun edges b answer _ => edges = groups.map (groupEdge b.landing)
        ∧ answer = (ls.map (leafEdge b.landing), []) := by
  induction ls generalizing seen groups bs' a a' with
  | nil =>
      cases hbs
      obtain rfl : groups = [] := List.map_eq_nil_iff.mp hgroups
      rw [Blueprint.branches]
      exact .pure h ⟨rfl, rfl⟩
  | cons l ls ih =>
      obtain ⟨key, noAdvance, n⟩ := l
      cases hbs with
      | cons hfirst hrest =>
          cases hfirst with
          | @leaf _ leaf' hleaf =>
              have hn : m n leaf'.target := hleaf.target
              have hvalue : none = leaf'.value := hleaf.value
              rw [branches_leaf, ← hvalue]
              by_cases hmem : n ∈ seen
              · obtain ⟨s, hs⟩ := hseen n hmem
                have hs' := (h.entered n leaf'.target hn).symm.trans hs
                refine Agrees.right_bind (hvisit.again' _ a' s hs') ?_
                rw [List.map_cons, firsts_cons_of_mem hmem] at hgroups
                rw [← bind_pure (tableEdges visit groups)]
                refine (ih hrest hgroups h hseen hdepth).bind
                  fun edges c answer c' hc hon _ hpost => ?_
                obtain ⟨rfl, rfl⟩ := hpost
                refine .pure hc ⟨rfl, ?_⟩
                rw [List.map_cons, leafEdge, landing_eq (hon.entered n s hs)]
              · rw [List.map_cons, firsts_cons_of_notMem hmem] at hgroups
                obtain ⟨group, groups, rfl, htarget, hgroups⟩ :=
                  List.map_eq_cons_iff.mp hgroups
                rw [tableEdges_cons, htarget]
                refine (hvisit.agree n _ a a' hn h hdepth).bind
                  fun s b s' b' hb hon hon' hpost => ?_
                obtain ⟨rfl, hs⟩ := hpost
                have hentered : ∀ k ∈ seen ++ [n], ∃ t,
                    b.stateOf? k = some t := by
                  intro k hk
                  rcases List.mem_append.mp hk with hk | hk
                  · obtain ⟨t, ht⟩ := hseen k hk
                    exact ⟨t, hon.entered k t ht⟩
                  · exact ⟨s, List.mem_singleton.mp hk ▸ hs⟩
                refine (ih hrest hgroups hb hentered
                  (hdepth.onward hon hon')).bind
                  fun edges c answer c' hc hon₂ _ hpost => ?_
                obtain ⟨rfl, rfl⟩ := hpost
                have hland := landing_eq (hon₂.entered n s hs)
                refine .pure hc ⟨?_, ?_⟩
                · rw [List.map_cons, groupEdge, htarget, hland]
                · rw [List.map_cons, leafEdge, hland]

section

variable {ls : List (UInt8 × Bool × NodeId)} {groups : List TableGroup}

/-- The one leaf of a byte that is in a group leads where the group does. -/
private theorem leaf_of_group (hgrouped : Grouped (leaves ls) groups)
    {group : TableGroup} (hgroup : group ∈ groups) {b : UInt8}
    (hb : b ∈ group.keys) :
    (b, group.noAdvance, group.target) ∈ ls := by
  obtain ⟨l, hl, heq⟩ := List.mem_map.mp (hgrouped.branch group hgroup b hb)
  simp only [Prod.mk.injEq, Trie.leaf.injEq, TrieLeaf.mk.injEq,
    and_true] at heq
  obtain ⟨hkey, hstays, htarget⟩ := heq
  rw [← hkey, ← hstays, ← htarget]
  exact hl

/-- A table and the branches choose alike, if no byte has two branches. -/
private theorem choose_groups (hgrouped : Grouped (leaves ls) groups)
    (hbytes : (ls.map (·.1)).Nodup) (land : NodeId → StateId) (b : UInt8) :
    Machine.choose (groups.map (groupEdge land)) b
        = Machine.choose (ls.map (leafEdge land)) b := by
  unfold Machine.choose
  rw [List.find?_map, List.find?_map]
  cases hleaf : ls.find? ((·.takes b) ∘ leafEdge land) with
  | none =>
      have hnone : groups.find? ((·.takes b) ∘ groupEdge land) = none := by
        refine List.find?_eq_none.mpr fun group hgroup htakes => ?_
        have hl :=
          leaf_of_group hgrouped hgroup (List.contains_iff_mem.mp htakes)
        exact List.find?_eq_none.mp hleaf _ hl (beq_self_eq_true b)
      rw [hnone]
      rfl
  | some l =>
      obtain ⟨key, noAdvance, n⟩ := l
      have hl := List.mem_of_find?_eq_some hleaf
      have htakes := List.find?_some hleaf
      obtain rfl : key = b := beq_iff_eq.mp htakes
      obtain ⟨group, hgroup, hkey⟩ :=
        hgrouped.complete _ (List.mem_map_of_mem hl)
      cases hfound : groups.find? ((·.takes key) ∘ groupEdge land) with
      | none =>
          exact absurd (List.contains_iff_mem.mpr hkey)
            (List.find?_eq_none.mp hfound _ hgroup)
      | some group' =>
          have htakes' := List.find?_some hfound
          have hl' := leaf_of_group hgrouped (List.mem_of_find?_eq_some hfound)
            (List.contains_iff_mem.mp htakes')
          obtain ⟨_, rfl, rfl⟩ :=
            Prod.mk.inj (List.inj_on_of_nodup_map hbytes hl' hl rfl)
          rfl

/-- Groups in the order of their targets have edges in that order. -/
private theorem order_groups
    (hgroups : groups.map (·.target) = firsts [] (ls.map (·.2.2)))
    (land : NodeId → StateId) :
    firsts [] ((groups.map (groupEdge land)).map (·.target))
      = firsts [] ((ls.map (leafEdge land)).map (·.target)) := by
  have hleft : (groups.map (groupEdge land)).map (·.target)
      = (groups.map (·.target)).map land := by
    rw [List.map_map, List.map_map]
    rfl
  have hright : (ls.map (leafEdge land)).map (·.target) = (ls.map (·.2.2)).map
      land := by
    rw [List.map_map, List.map_map]
    rfl
  rw [hleft, hright, hgroups]
  exact (firsts_map fun n hn => absurd hn List.not_mem_nil).symm

end

/-- The groups are of the same bytes and lead to nodes that are matched. -/
structure SameGroup (m : NodeId → NodeId → Prop) (group group' : TableGroup) :
    Prop where
  target : m group.target group'.target
  keys : group.keys = group'.keys
  noAdvance : group.noAdvance = group'.noAdvance

/-- Matching groups take a byte in the same way, or both refuse it. -/
private theorem addToGroups_same (hm : Relator.BiUnique m)
    {groups groups' : List TableGroup}
    (h : List.Forall₂ (SameGroup m) groups groups') (key : UInt8)
    (noAdvance : Bool) {n n' : NodeId} (hn : m n n') :
    Option.Rel (List.Forall₂ (SameGroup m))
      (addToGroups key noAdvance n groups)
      (addToGroups key noAdvance n' groups') := by
  induction h with
  | nil => exact .some (.cons ⟨hn, rfl, rfl⟩ .nil)
  | @cons group group' groups groups' hhead hrest ih =>
      have hiff : group.target = n ↔ group'.target = n' := by
        constructor
        · rintro rfl
          exact hm.2 hhead.target hn
        · rintro rfl
          exact hm.1 hhead.target hn
      unfold addToGroups
      by_cases hsame : group.target = n
      · rw [if_pos (beq_iff_eq.mpr hsame),
          if_pos (beq_iff_eq.mpr (hiff.mp hsame)),
          ← hhead.noAdvance]
        split
        · exact .some (.cons ⟨hhead.target, by rw [hhead.keys], rfl⟩ hrest)
        · exact .none
      · rw [if_neg fun h => hsame (beq_iff_eq.mp h),
          if_neg fun h => hsame (hiff.mpr (beq_iff_eq.mp h))]
        generalize addToGroups key noAdvance n groups = some? at ih
        generalize addToGroups key noAdvance n' groups' = some?' at ih
        cases ih with
        | none => exact .none
        | some hmore => exact .some (.cons hhead hmore)

/-- Branches that match are grouped alike, or refused alike. -/
private theorem groupBranches_same (hm : Relator.BiUnique m)
    {bs bs' : List (UInt8 × Bool × Trie)} (hbs : Trie.BranchesMatch m bs bs')
    {groups groups' : List TableGroup}
    (h : List.Forall₂ (SameGroup m) groups groups') :
    Option.Rel (List.Forall₂ (SameGroup m)) (groupBranches bs groups)
      (groupBranches bs' groups') := by
  induction bs generalizing bs' groups groups' with
  | nil =>
      cases hbs
      exact .some h
  | cons x bs ih =>
      cases hbs with
      | @cons key noAdvance _ _ _ _ hfirst hrest =>
          cases hfirst with
          | @leaf leaf leaf' hleaf =>
              obtain ⟨n, value⟩ := leaf
              obtain ⟨n', value'⟩ := leaf'
              obtain ⟨hn, rfl⟩ : m n n' ∧ value = value' :=
                ⟨hleaf.target, hleaf.value⟩
              cases value with
              | some value => exact .none
              | none =>
                  have hadd := addToGroups_same hm h key noAdvance hn
                  unfold groupBranches
                  generalize addToGroups key noAdvance n groups = more? at hadd
                  generalize addToGroups key noAdvance n' groups'
                    = more?' at hadd
                  cases hadd with
                  | none => exact .none
                  | some hmore => exact ih hrest hmore
          | sequence _ => exact .none
          | single _ _ => exact .none

-- =============================================================== tries

/-- The match nodes whose tries are assembled are matched. -/
structure SameOwner (m : NodeId → NodeId → Prop)
    (owner owner' : Blueprint.Owner) : Prop where
  id : m owner.id owner'.id
  name : owner.name = owner'.name
  transform : owner.transform = owner'.transform

/-- There is depth left, at the latest when the owner is entered. -/
def Room (owner : NodeId) (depth depth' : Nat) (a a' : Assembly) : Prop :=
  DepthLeft depth depth' a a'
    ∨ a.stateOf? owner = none ∧ a.unentered ≤ depth ∧ a'.unentered ≤ depth'

section

variable {owner owner' : Blueprint.Owner}

theorem SameOwner.symm (h : SameOwner m owner owner') :
    SameOwner (flip m) owner' owner :=
  ⟨h.id, h.name.symm, h.transform.symm⟩

theorem Room.symm (h : Room owner.id depth depth' a a')
    (htwins : Twins swaps m a a')
    (howner : SameOwner m owner owner') : Room owner'.id depth' depth a' a :=
  h.imp DepthLeft.symm fun ⟨hnew, hle, hle'⟩ =>
    ⟨(htwins.entered _ _ howner.id).symm.trans hnew, hle', hle⟩

/-- The states of tries are added alike, and the first one is entered. -/
theorem addTrieState_agrees (hm : Relator.BiUnique m) (h : Twins swaps m a a')
    (howner : SameOwner m owner owner')
    (hroom : Room owner.id depth depth' a a') {kind kind' : Machine.StateKind}
    (hkinds : kind = kind' ∨ swaps ∧ kind.Counterparts kind') :
    Agrees swaps m (Blueprint.addTrieState owner kind) a
      (Blueprint.addTrieState owner' kind') a'
      fun s b s' b' => s = s' ∧ b.Made s kind ∧ b'.Made s' kind'
        ∧ DepthLeft depth depth' b b' ∧ (∃ t, b.stateOf? owner.id = some t)
        ∧ (a.stateOf? owner.id = none → b.stateOf? owner.id = some s) := by
  unfold Blueprint.addTrieState
  rw [← howner.name, ← howner.transform]
  refine (addState_agrees h owner.name owner.transform hkinds).bind
      fun s b s' b' hb hon hon' hpost =>
    Agrees.get_bind ?_
  obtain ⟨rfl, hmade, hmade', hentered⟩ := hpost
  have hsame : b.stateOf? owner.id = a.stateOf? owner.id := by
    unfold stateOf?
    rw [hentered]
  rw [← hb.entered _ _ howner.id]
  have hle := hon.unentered
  have hle' := hon'.unentered
  by_cases hnew : (b.stateOf? owner.id).isNone = true
  · rw [if_pos hnew, if_pos hnew]
    have hnone := Option.isNone_iff_eq_none.mp hnew
    refine (enter_agrees hm hb howner.id hnone s).bind
      fun _ c _ c' hc hon₂ hon₂' hpost => ?_
    obtain ⟨hs, hlt, hlt'⟩ := hpost
    refine .pure hc
      ⟨rfl, hmade.keep hon₂.toKept, hmade'.keep hon₂'.toKept, ?_, ⟨s, hs⟩,
      fun _ => hs⟩
    rcases hroom with hdepth | ⟨_, hdepth, hdepth'⟩
    · exact hdepth.onward (hon.trans hon₂) (hon'.trans hon₂')
    · exact ⟨by omega, by omega⟩
  · rw [if_neg hnew, if_neg hnew]
    have hnot : a.stateOf? owner.id ≠ none := by
      rw [← hsame]
      exact fun hnone => hnew (Option.isNone_iff_eq_none.mpr hnone)
    refine .pure hb ⟨rfl, hmade, hmade', ?_,
      Option.ne_none_iff_exists'.mp fun hnone => hnot (hsame ▸ hnone),
        fun hnone => absurd hnone hnot⟩
    exact (hroom.resolve_right fun hnone => hnot hnone.1).onward hon hon'

/-- What comes of assembling a trie on both sides: the same state and the same
states added, the owner is entered with it if the trie is the first of it, and
there is depth left. -/
def TrieAgrees (swaps : Prop) (m : NodeId → NodeId → Prop) (depth depth' : Nat)
    (owner : NodeId) (x x' : Assemble (StateId × List StateId))
    (a a' : Assembly) : Prop :=
  Agrees swaps m x a x' a' fun r b r' b' => r = r'
    ∧ (a.stateOf? owner = none → b.stateOf? owner = some r.1)
    ∧ DepthLeft depth depth' b b'

/-- A level is a table on one side and branches on the other. -/
private theorem trieAgrees_swapped (hm : Relator.BiUnique m) (hswaps : swaps)
    (hvisit : VisitsAgree swaps m depth depth' visit visit')
    (howner : SameOwner m owner owner') {bs bs' : List (UInt8 × Bool × Trie)}
    {fallback fallback' : Option TrieLeaf} {groups : List TableGroup}
    (hgroups : bp.tableGroups? bs fallback = some groups)
    (hbranches : bp'.tableGroups? bs' fallback' = none)
    (hbs : Trie.BranchesMatch m bs bs')
    (hended : Option.Rel (TrieLeaf.Matches m) fallback fallback')
    (hascending : (bs.map (·.1)).Pairwise (· < ·)) (h : Twins swaps m a a')
    (hroom : Room owner.id depth depth' a a') :
    TrieAgrees swaps m depth depth' owner.id
      (bp.trie visit owner (.single bs fallback))
      (bp'.trie visit' owner' (.single bs' fallback')) a a' := by
  obtain ⟨rfl, hgrouped⟩ := grouped_of_tableGroups hgroups
  obtain ⟨ls, rfl, htargets⟩ :=
    leaves_of_groupBranches (tableGroups_eq_some.mp hgroups).1.2
  have hbytes : (ls.map (·.1)).Nodup := by
    unfold leaves at hascending
    rw [List.map_map] at hascending
    exact hascending.imp fun hlt => UInt8.ne_of_lt hlt
  cases hended
  unfold TrieAgrees
  rw [Blueprint.trie, Blueprint.trie, hgroups, hbranches]
  refine (addTrieState_agrees hm h howner hroom
    (Or.inr ⟨hswaps, Or.inr ⟨rfl, rfl⟩⟩)).bind
    fun s b s' b' hb _ _ hpost => ?_
  obtain ⟨rfl, hmade, hmade', hdepth, _, hentered⟩ := hpost
  refine (tableEdges_agrees hvisit hbs htargets hb
    (fun n hn => absurd hn List.not_mem_nil)
    hdepth).bind fun edges c answer c' hc hon hon' hpost => ?_
  obtain ⟨rfl, rfl⟩ := hpost
  refine (setEdges_swapped hc (hmade.keep hon.toKept) (hmade'.keep hon'.toKept)
    (Or.inr ⟨rfl, rfl⟩) (choose_groups hgrouped hbytes c.landing)
    (order_groups htargets c.landing)).bind fun _ d _ d' hd hon₂ hon₂' _ => ?_
  exact .pure hd
    ⟨rfl, fun hnew => hon₂.entered _ _ (hon.entered _ _ (hentered hnew)),
    hdepth.onward (hon.trans hon₂) (hon'.trans hon₂')⟩

/-- A level is a table on both sides. -/
private theorem trieAgrees_tables (hm : Relator.BiUnique m)
    (hvisit : VisitsAgree swaps m depth depth' visit visit')
    (howner : SameOwner m owner owner') {bs bs' : List (UInt8 × Bool × Trie)}
    {fallback fallback' : Option TrieLeaf} {groups groups' : List TableGroup}
    (hgroups : bp.tableGroups? bs fallback = some groups)
    (hgroups' : bp'.tableGroups? bs' fallback' = some groups')
    (hbs : Trie.BranchesMatch m bs bs') (h : Twins swaps m a a')
    (hroom : Room owner.id depth depth' a a') :
    TrieAgrees swaps m depth depth' owner.id
      (bp.trie visit owner (.single bs fallback))
      (bp'.trie visit' owner' (.single bs' fallback')) a a' := by
  have hsame : List.Forall₂ (SameGroup m) groups groups' := by
    have hboth :=
      groupBranches_same hm hbs (.nil : List.Forall₂ (SameGroup m) [] [])
    rw [(tableGroups_eq_some.mp hgroups).1.2,
      (tableGroups_eq_some.mp hgroups').1.2] at hboth
    cases hboth with
    | some hsame => exact hsame
  unfold TrieAgrees
  rw [Blueprint.trie, Blueprint.trie, hgroups, hgroups']
  refine (addTrieState_agrees hm h howner hroom (Or.inl rfl)).bind
    fun s b s' b' hb _ _ hpost => ?_
  obtain ⟨rfl, hmade, hmade', hdepth, _, hentered⟩ := hpost
  have hedges : Agrees swaps m (tableEdges visit groups) b
      (tableEdges visit' groups') b'
      fun edges _ edges' _ => edges = edges' := by
    unfold tableEdges
    refine .mapM hsame (fun group group' c c' hgroup hc hon hon' => ?_) hb
    refine (hvisit.agree _ _ c c' hgroup.target hc
      (hdepth.onward hon hon')).bind
      fun t d t' d' hd _ _ hpost => ?_
    rw [hgroup.keys, hgroup.noAdvance, hpost.1]
    exact .pure hd rfl
  refine hedges.bind fun edges c edges' c' hc hon hon' hsame => ?_
  subst hsame
  refine (setEdges_agrees hc (hmade.keep hon.toKept) (hmade'.keep hon'.toKept)
    edges).bind fun _ d _ d' hd hon₂ hon₂' _ => ?_
  exact .pure hd
    ⟨rfl, fun hnew => hon₂.entered _ _ (hon.entered _ _ (hentered hnew)),
    hdepth.onward (hon.trans hon₂) (hon'.trans hon₂')⟩

/-- Branches that match are as many. -/
private theorem length_branchesMatch {bs bs' : List (UInt8 × Bool × Trie)}
    (h : Trie.BranchesMatch m bs bs') : bs.length = bs'.length := by
  have hbytes := congrArg List.length h.bytes
  rwa [List.length_map, List.length_map] at hbytes

/-- With the same options, a level is a table on both sides or on neither. -/
private theorem isSome_tableGroups (hm : Relator.BiUnique m)
    (hoptions : bp.options = bp'.options) {bs bs' : List (UInt8 × Bool × Trie)}
    {fallback fallback' : Option TrieLeaf} (hbs : Trie.BranchesMatch m bs bs')
    (hended : Option.Rel (TrieLeaf.Matches m) fallback fallback') :
    (bp.tableGroups? bs fallback).isSome
        = (bp'.tableGroups? bs' fallback').isSome := by
  have hsome : fallback.isSome = fallback'.isSome := by
    cases hended <;> rfl
  have hgroups :=
    groupBranches_same hm hbs (.nil : List.Forall₂ (SameGroup m) [] [])
  unfold Blueprint.tableGroups?
  rw [← hoptions, ← length_branchesMatch hbs, ← hsome]
  split
  · rfl
  · generalize groupBranches bs [] = groups? at hgroups
    generalize groupBranches bs' [] = groups?' at hgroups
    cases hgroups with
    | none => rfl
    | some hsame =>
        dsimp only
        rw [← hsame.length_eq]
        split <;> rfl

/-- Where one side has a table and the other has not, options differ and swaps
are admitted. -/
private theorem swaps_of_table (hm : Relator.BiUnique m)
    (hoptions : swaps ∨ bp.options = bp'.options)
    {bs bs' : List (UInt8 × Bool × Trie)}
    {fallback fallback' : Option TrieLeaf} (hbs : Trie.BranchesMatch m bs bs')
    (hended : Option.Rel (TrieLeaf.Matches m) fallback fallback')
    (hne : (bp.tableGroups? bs fallback).isSome
      ≠ (bp'.tableGroups? bs' fallback').isSome) :
    swaps :=
  hoptions.resolve_right fun heq => hne (isSome_tableGroups hm heq hbs hended)

/-- Leaves that match bring the same value. -/
theorem leafValue_eq {t t' : Trie} (h : t.Matches m t') :
    Blueprint.leafValue t = Blueprint.leafValue t' := by
  cases h with
  | leaf leads => exact leads.value
  | sequence _ => rfl
  | single _ _ => rfl

/-- A level branches on both sides. -/
private theorem trieAgrees_branches (hm : Relator.BiUnique m)
    (hvisit : VisitsAgree swaps m depth depth' visit visit')
    (howner : SameOwner m owner owner') {bs bs' : List (UInt8 × Bool × Trie)}
    {fallback fallback' : Option TrieLeaf}
    (hgroups : bp.tableGroups? bs fallback = none)
    (hgroups' : bp'.tableGroups? bs' fallback' = none)
    (hended : Option.Rel (TrieLeaf.Matches m) fallback fallback')
    (hbranches : ∀ {b b' : Assembly}, Twins swaps m b b' →
      (∃ s, b.stateOf? owner.id = some s) →
      DepthLeft depth depth' b b' →
        Agrees swaps m (bp.branches visit owner bs) b
          (bp'.branches visit' owner' bs') b'
          fun r _ r' _ => r = r')
    (h : Twins swaps m a a') (hroom : Room owner.id depth depth' a a') :
    TrieAgrees swaps m depth depth' owner.id
      (bp.trie visit owner (.single bs fallback))
      (bp'.trie visit' owner' (.single bs' fallback')) a a' := by
  unfold TrieAgrees
  rw [Blueprint.trie, Blueprint.trie, hgroups, hgroups']
  refine (addTrieState_agrees hm h howner hroom (Or.inl rfl)).bind
    fun s b s' b' hb _ _ hpost => ?_
  obtain ⟨rfl, hmade, hmade', hdepth, hs, hentered⟩ := hpost
  refine (hbranches hb hs hdepth).bind
    fun answer c answer' c' hc hon hon' hsame => ?_
  subst hsame
  refine (setEdges_agrees hc (hmade.keep hon.toKept)
    (hmade'.keep hon'.toKept) _).bind
    fun _ d _ d' hd hon₂ hon₂' _ => ?_
  have hlast := fun hnew => hon₂.entered _ _ (hon.entered _ _ (hentered hnew))
  have hleft := hdepth.onward (hon.trans hon₂) (hon'.trans hon₂')
  cases hended with
  | none => exact .pure hd ⟨rfl, hlast, hleft⟩
  | some leads =>
      refine (hvisit.agree _ _ d d' leads.target hd hleft).bind
        fun t e t' e' he hon₃ hon₃' hpost => ?_
      obtain ⟨rfl, _⟩ := hpost
      rw [leads.value]
      refine (setOtherwise_agrees he _ _).bind fun _ f _ f' hf hon₄ hon₄' _ =>
        ?_
      exact .pure hf
        ⟨rfl, fun hnew => hon₄.entered _ _ (hon₃.entered _ _ (hlast hnew)),
        hleft.onward (hon₃.trans hon₄) (hon₃'.trans hon₄')⟩

/-- What matches one to one does so the other way round. -/
private theorem biUnique_flip (hm : Relator.BiUnique m) :
    Relator.BiUnique (flip m) :=
  ⟨fun _ _ _ h h' => hm.2 h h', fun _ _ _ h h' => hm.1 h h'⟩

/-- Tries that are built alike are so the other way round. -/
private theorem trieAgrees_symm (howner : SameOwner m owner owner')
    (h : Twins swaps m a a') {x x' : Assemble (StateId × List StateId)}
    (hflip : TrieAgrees swaps (flip m) depth' depth owner'.id x' x a' a) :
    TrieAgrees swaps m depth depth' owner.id x x' a a' := by
  refine (Agrees.symm hflip).mono fun r b r' b' hb _ _ hpost => ?_
  obtain ⟨rfl, hentered, hdepth⟩ := hpost
  refine ⟨rfl, fun hnew => ?_, hdepth.symm⟩
  rw [hb.entered _ _ howner.id]
  exact hentered ((h.entered _ _ howner.id).symm.trans hnew)

mutual

/-- Tries that match are assembled alike. -/
theorem trie_agrees (hm : Relator.BiUnique m)
    (hoptions : swaps ∨ bp.options = bp'.options)
    (hvisit : VisitsAgree swaps m depth depth' visit visit')
    (howner : SameOwner m owner owner') : ∀ {t t' : Trie}, t.Matches m t' →
    t.Formed →
      ∀ {a a' : Assembly}, Twins swaps m a a' →
        Room owner.id depth depth' a a' →
        (a.stateOf? owner.id = none → t.Deep) →
          TrieAgrees swaps m depth depth' owner.id (bp.trie visit owner t)
            (bp'.trie visit' owner' t') a a'
  | .leaf leaf, .leaf leaf', .leaf leads, _, a, a', h, hroom, hdeep => by
      unfold TrieAgrees
      rw [Blueprint.trie, Blueprint.trie]
      have hentered : a.stateOf? owner.id ≠ none := fun hnone => hdeep hnone
      have hdepth := hroom.resolve_right fun hnew => hentered hnew.1
      refine (hvisit.agree _ _ a a' leads.target h hdepth).bind
        fun s b s' b' hb hon hon' hpost => ?_
      obtain ⟨rfl, _⟩ := hpost
      exact .pure hb ⟨rfl, fun hnone => absurd hnone hentered,
        hdepth.onward hon hon'⟩
  | .sequence literal child, .sequence _ child', .sequence below, hform, a, a',
      h, hroom, _ => by
      cases hform with
      | sequence _ hchild =>
          unfold TrieAgrees
          rw [Blueprint.trie, Blueprint.trie]
          refine (addTrieState_agrees hm h howner hroom (Or.inl rfl)).bind
            fun s b s' b' hb _ _ hpost => ?_
          obtain ⟨rfl, hmade, hmade', hdepth, ⟨t, ht⟩, hentered⟩ := hpost
          have hnot : b.stateOf? owner.id = none → child.Deep :=
            fun hnone => by
            rw [ht] at hnone
            cases hnone
          refine (trie_agrees hm hoptions hvisit howner below hchild hb
            (Or.inl hdepth) hnot).bind
            fun r c r' c' hc hon hon' hpost => ?_
          obtain ⟨rfl, _⟩ := hpost
          rw [leafValue_eq below]
          refine (setEdges_agrees hc (hmade.keep hon.toKept)
            (hmade'.keep hon'.toKept) _).bind
            fun _ d _ d' hd hon₂ hon₂' _ => ?_
          exact .pure hd
            ⟨rfl, fun hnew => hon₂.entered _ _
            (hon.entered _ _ (hentered hnew)),
            hdepth.onward (hon.trans hon₂) (hon'.trans hon₂')⟩
  | .single bs fallback, .single bs' fallback', .single below ended, hform, a,
      a', h, hroom, _ => by
      cases hform with
      | single hascending hchildren =>
          cases hgroups : bp.tableGroups? bs fallback with
          | some groups =>
              cases hgroups' : bp'.tableGroups? bs' fallback' with
              | some groups' =>
                  exact trieAgrees_tables hm hvisit howner hgroups hgroups'
                    below h hroom
              | none =>
                  have hswaps := swaps_of_table hm hoptions below ended (by
                    rw [hgroups, hgroups']
                    exact Bool.noConfusion)
                  exact trieAgrees_swapped hm hswaps hvisit howner hgroups
                    hgroups' below ended
                    hascending h hroom
          | none =>
              cases hgroups' : bp'.tableGroups? bs' fallback' with
              | some groups' =>
                  have hswaps := swaps_of_table hm hoptions below ended (by
                    rw [hgroups, hgroups']
                    exact Bool.noConfusion)
                  exact trieAgrees_symm howner h
                    (trieAgrees_swapped (biUnique_flip hm) hswaps
                    hvisit.symm howner.symm hgroups' hgroups below.symm
                      (Trie.rel_symm ended)
                    (below.bytes ▸ hascending) h.symm (hroom.symm h howner))
              | none =>
                  exact trieAgrees_branches hm hvisit howner hgroups
                    hgroups' ended (fun hb hs hdepth =>
                      branches_agrees hm hoptions hvisit howner below hchildren
                        hb hs hdepth) h hroom

/-- Branches that match are assembled alike, below an owner that is entered. -/
theorem branches_agrees (hm : Relator.BiUnique m)
    (hoptions : swaps ∨ bp.options = bp'.options)
    (hvisit : VisitsAgree swaps m depth depth' visit visit')
    (howner : SameOwner m owner owner') :
    ∀ {bs bs' : List (UInt8 × Bool × Trie)},
      Trie.BranchesMatch m bs bs' → (∀ x ∈ bs, x.2.2.Formed) →
        ∀ {a a' : Assembly}, Twins swaps m a a' →
          (∃ s, a.stateOf? owner.id = some s) →
          DepthLeft depth depth' a a' →
            Agrees swaps m (bp.branches visit owner bs) a
              (bp'.branches visit' owner' bs') a'
              fun r _ r' _ => r = r'
  | [], [], .nil, _, a, a', h, _, _ => by
      rw [Blueprint.branches, Blueprint.branches]
      exact .pure h rfl
  | (key, noAdvance, child) :: bs,
      (_, _, child') :: bs', .cons first rest, hform, a, a', h,
      ⟨t, ht⟩, hdepth => by
      have hnot : a.stateOf? owner.id = none → child.Deep := fun hnone => by
        rw [ht] at hnone
        cases hnone
      rw [Blueprint.branches, Blueprint.branches]
      refine (trie_agrees hm hoptions hvisit howner first
        (hform _ List.mem_cons_self) h
        (Or.inl hdepth) hnot).bind fun r b r' b' hb hon hon' hpost => ?_
      obtain ⟨rfl, _⟩ := hpost
      refine (branches_agrees hm hoptions hvisit howner rest
        (fun x hx => hform x (List.mem_cons_of_mem _ hx)) hb
        ⟨t, hon.entered _ _ ht⟩
        (hdepth.onward hon hon')).bind fun answer c answer' c' hc _ _ hsame =>
          ?_
      subst hsame
      rw [leafValue_eq first]
      exact .pure hc rfl

end

end

end Bytewise.Assembly

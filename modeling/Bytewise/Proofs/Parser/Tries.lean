/-
The states of a trie.

A trie is assembled from the leaves up, between the visits of the nodes
that its leaves lead to. Its own states stay pending all the while: they
get their keyed edges on the way, and their otherwise edge when the node's
is known (`PartsDone`, `fill_answers`). What the visits do is left open
here; all that is asked of them is `Visits`.
-/
import Bytewise.Proofs.List
import Bytewise.Proofs.Parser.Tracks

namespace Bytewise

namespace Assembly

open Blueprint (leafValue TableGroup addToGroups groupBranches)

variable {bp : Blueprint} {root : NodeId} {depth : Nat}
  {pending : StateId → Prop} {a a' : Assembly} {roles roles' : List Role}

-- ============================================================== visits

/-- A way to visit nodes, as long as at most `depth` are not entered: it enters
the node, finishes all states it adds, and leaves those alone that were
there. -/
def Visits (bp : Blueprint) (root : NodeId) (depth : Nat)
    (visit : NodeId → Assemble StateId) :
    Prop :=
  ∀ (pending : StateId → Prop) (a : Assembly) (roles : List Role) (n : NodeId),
    Tracks bp root pending a roles → bp.graph.Reaches root n →
      n < bp.graph.size →
      a.unentered ≤ depth →
        Answers (visit n) a fun s a' => ∃ roles',
          Tracks bp root pending a' roles'
          ∧ Grows a roles a' roles' ∧ a'.stateOf? n = some s

/-- A visit of where an edge of a node leads. -/
theorem Visits.target {visit : NodeId → Assemble StateId}
    (hvisit : Visits bp root depth visit) (hg : bp.graph.Sound) {n : NodeId}
    (hreach : bp.graph.Reaches root n) {edge : Edge}
    (hedge : edge ∈ (bp.graph.node n).allEdges)
    (h : Tracks bp root pending a roles) (hdepth : a.unentered ≤ depth) :
    Answers (visit edge.target) a fun s b => ∃ roles',
      Tracks bp root pending b roles'
      ∧ Grows a roles b roles' ∧ b.stateOf? edge.target = some s :=
  have hleads := Graph.leads_of_edge hedge
  hvisit pending a roles edge.target h (hreach.step hleads)
    (hg.target_lt hleads) hdepth

/-- What holds of each element of a list and is not lost later, holds of all in
the end. -/
theorem Answers.mapM {γ δ : Type} {R : Layout → γ → δ → Prop}
    {f : γ → Assemble δ} {xs : List γ}
    (lasts : ∀ {l l' : Layout} {x y}, l.Extends l' → R l x y → R l' x y)
    (each : ∀ x ∈ xs, ∀ a roles, Tracks bp root pending a roles →
      a.unentered ≤ depth →
      Answers (f x) a fun y a' => ∃ roles', Tracks bp root pending a' roles'
        ∧ Grows a roles a' roles' ∧ R (a'.layout roles') x y)
    (h : Tracks bp root pending a roles) (hdepth : a.unentered ≤ depth) :
    Answers (xs.mapM f) a fun ys a' => ∃ roles',
      Tracks bp root pending a' roles'
      ∧ Grows a roles a' roles'
          ∧ List.Forall₂ (R (a'.layout roles')) xs ys := by
  induction xs generalizing a roles with
  | nil => exact Answers.pure ⟨roles, h, Grows.refl, .nil⟩
  | cons x xs ih =>
      rw [List.mapM_cons]
      refine (each x List.mem_cons_self a roles h hdepth).bind ?_
      intro y b hpost
      obtain ⟨roles₁, htracks, hgrows, hy⟩ := hpost
      refine (ih (fun z hz => each z (List.mem_cons_of_mem x hz)) htracks
        (Nat.le_trans hgrows.unentered hdepth)).bind ?_
      intro ys c hpost
      obtain ⟨roles₂, htracks', hgrows', hys⟩ := hpost
      exact Answers.pure
        ⟨roles₂, htracks', hgrows.trans hgrows',
          .cons (lasts hgrows'.layout hy) hys⟩

-- ============================================================== tables

/-- Groups that hold the branches looked at so far, each key in one of them. -/
structure Grouped (bs : List (UInt8 × Bool × Trie))
    (groups : List TableGroup) : Prop where
  used : ∀ group ∈ groups, group.keys ≠ []
  branch : ∀ group ∈ groups, ∀ b ∈ group.keys,
    (b, group.noAdvance, Trie.leaf ⟨group.target, none⟩) ∈ bs
  complete : ∀ x ∈ bs, ∃ group ∈ groups, x.1 ∈ group.keys

/-- A byte joins the group of its target, or starts one. -/
theorem Grouped.add {bs : List (UInt8 × Bool × Trie)}
    {groups groups' : List TableGroup} {key : UInt8} {noAdvance : Bool}
    {target : NodeId} (used : ∀ group ∈ groups, group.keys ≠ [])
    (branch : ∀ group ∈ groups, ∀ b ∈ group.keys,
      (b, group.noAdvance, Trie.leaf ⟨group.target, none⟩) ∈ bs)
    (hnew : (key, noAdvance, Trie.leaf ⟨target, none⟩) ∈ bs)
    (hok : addToGroups key noAdvance target groups = some groups') :
    (∀ group ∈ groups', group.keys ≠ [])
      ∧ (∀ group ∈ groups', ∀ b ∈ group.keys,
          (b, group.noAdvance, Trie.leaf ⟨group.target, none⟩) ∈ bs)
      ∧ (∀ group ∈ groups, ∃ group' ∈ groups', group.keys ⊆ group'.keys)
      ∧ ∃ group' ∈ groups', key ∈ group'.keys := by
  induction groups generalizing groups' with
  | nil =>
      obtain rfl := Option.some.inj hok
      have hkey : key ∈ [key] := List.mem_singleton.mpr rfl
      refine ⟨fun group hgroup => ?_, fun group hgroup b hb => ?_,
        fun _ h => (nomatch h),
        _, List.mem_singleton.mpr rfl, hkey⟩
      · rw [List.mem_singleton.mp hgroup]
        exact List.cons_ne_nil _ _
      · rw [List.mem_singleton.mp hgroup] at hb ⊢
        rw [List.mem_singleton.mp hb]
        exact hnew
  | cons group groups ih =>
      unfold addToGroups at hok
      split at hok
      · rename_i htarget
        split at hok
        · -- the group of the target takes the key
          rename_i hstays
          obtain rfl := Option.some.inj hok
          have htarget := beq_iff_eq.mp htarget
          have hstays := beq_iff_eq.mp hstays
          refine ⟨fun g hg => ?_, fun g hg b hb => ?_, fun g hg => ?_,
            _, List.mem_cons_self,
              List.mem_append_right _ (List.mem_singleton.mpr rfl)⟩
          · rcases List.mem_cons.mp hg with rfl | hg
            · exact List.append_ne_nil_of_right_ne_nil _ (List.cons_ne_nil _ _)
            · exact used g (List.mem_cons_of_mem _ hg)
          · rcases List.mem_cons.mp hg with rfl | hg
            · rcases List.mem_append.mp hb with hb | hb
              · exact branch group List.mem_cons_self b hb
              · rw [List.mem_singleton.mp hb]
                show (key, group.noAdvance, Trie.leaf ⟨group.target, none⟩)
                  ∈ bs
                rw [htarget, hstays]
                exact hnew
            · exact branch g (List.mem_cons_of_mem _ hg) b hb
          · rcases List.mem_cons.mp hg with rfl | hg
            · exact ⟨_, List.mem_cons_self, List.subset_append_left _ _⟩
            · exact ⟨g, List.mem_cons_of_mem _ hg, List.Subset.refl _⟩
        · cases hok
      · obtain ⟨more, hmore, rfl⟩ := Option.map_eq_some_iff.mp hok
        obtain ⟨hused, hbranch, hkept, g', hg', hkey⟩ :=
          ih (fun g hg => used g (List.mem_cons_of_mem _ hg))
            (fun g hg => branch g (List.mem_cons_of_mem _ hg)) hmore
        refine ⟨fun g hg => ?_, fun g hg b hb => ?_, fun g hg => ?_,
          g', List.mem_cons_of_mem _ hg', hkey⟩
        · rcases List.mem_cons.mp hg with rfl | hg
          · exact used g List.mem_cons_self
          · exact hused g hg
        · rcases List.mem_cons.mp hg with rfl | hg
          · exact branch g List.mem_cons_self b hb
          · exact hbranch g hg b hb
        · rcases List.mem_cons.mp hg with rfl | hg
          · exact ⟨g, List.mem_cons_self, List.Subset.refl _⟩
          · obtain ⟨k, hk, hsub⟩ := hkept g hg
            exact ⟨k, List.mem_cons_of_mem _ hk, hsub⟩

/-- Only leaves without a value are grouped, one after another. -/
theorem groupBranches_cons {x : UInt8 × Bool × Trie}
    {bs : List (UInt8 × Bool × Trie)} {groups groups' : List TableGroup}
    (hok : groupBranches (x :: bs) groups = some groups') :
    ∃ target more, x.2.2 = .leaf ⟨target, none⟩
      ∧ addToGroups x.1 x.2.1 target groups = some more
      ∧ groupBranches bs more = some groups' := by
  obtain ⟨key, noAdvance, child⟩ := x
  match child with
  | .leaf ⟨target, some value⟩ => cases hok
  | .sequence _ _ => cases hok
  | .single _ _ => cases hok
  | .leaf ⟨target, none⟩ =>
      obtain ⟨more, hadd, hrest⟩ := Option.bind_eq_some_iff.mp hok
      exact ⟨target, more, rfl, hadd, hrest⟩

/-- Branches are grouped one after another. -/
theorem Grouped.all {done bs : List (UInt8 × Bool × Trie)}
    {groups groups' : List TableGroup} (h : Grouped done groups)
    (hok : groupBranches bs groups = some groups') :
    Grouped (done ++ bs) groups' := by
  induction bs generalizing done groups with
  | nil =>
      obtain rfl := Option.some.inj hok
      rw [List.append_nil]
      exact h
  | cons x bs ih =>
      obtain ⟨target, more, hleaf, hadd, hrest⟩ := groupBranches_cons hok
      obtain ⟨key, noAdvance, child⟩ := x
      obtain rfl : child = .leaf ⟨target, none⟩ := hleaf
      have hmem : ∀ {y}, y ∈ done →
          y ∈ done ++ [(key, noAdvance, Trie.leaf ⟨target, none⟩)] :=
        fun hy => List.mem_append_left _ hy
      obtain ⟨hused, hbranch, hkept, g', hg', hkey⟩ := Grouped.add h.used
        (fun g hg b hb => hmem (h.branch g hg b hb))
        (List.mem_append_right _ (List.mem_singleton.mpr rfl)) hadd
      have hgrouped : Grouped
          (done ++ [(key, noAdvance, Trie.leaf ⟨target, none⟩)]) more := by
        refine ⟨hused, hbranch, fun x hx => ?_⟩
        rcases List.mem_append.mp hx with hx | hx
        · obtain ⟨g, hg, hxg⟩ := h.complete x hx
          obtain ⟨k, hk, hsub⟩ := hkept g hg
          exact ⟨k, hk, hsub hxg⟩
        · rw [List.mem_singleton.mp hx]
          exact ⟨g', hg', hkey⟩
      have hall := ih hgrouped hrest
      rwa [List.append_assoc] at hall

/-- A level becomes a table if it has enough branches and no fallback, and its
groups are few. -/
theorem tableGroups_eq_some {bs : List (UInt8 × Bool × Trie)}
    {fallback : Option TrieLeaf} {groups : List TableGroup} :
    bp.tableGroups? bs fallback = some groups
      ↔ (¬ (bs.length < bp.options.minTableSize || fallback.isSome) = true
          ∧ groupBranches bs [] = some groups)
              ∧ groups.length < bp.options.maxTableTargets := by
  unfold Blueprint.tableGroups?
  split
  · rename_i hshape
    simp [hshape]
  · rename_i hshape
    cases groupBranches bs [] with
    | none => simp
    | some groups' =>
        dsimp only
        split
        · rename_i hfew
          constructor
          · intro h
            obtain rfl := Option.some.inj h
            exact ⟨⟨hshape, rfl⟩, hfew⟩
          · rintro ⟨⟨_, h⟩, _⟩
            exact h
        · rename_i hmany
          constructor
          · exact fun h => nomatch h
          · rintro ⟨⟨_, h⟩, hfew⟩
            exact absurd (Option.some.inj h ▸ hfew) hmany

/-- Branches that become a table are grouped, and have no fallback. -/
theorem grouped_of_tableGroups {bs : List (UInt8 × Bool × Trie)}
    {fallback : Option TrieLeaf} {groups : List TableGroup}
    (hok : bp.tableGroups? bs fallback = some groups) :
    fallback = none ∧ Grouped bs groups := by
  obtain ⟨⟨hshape, hgroups⟩, _⟩ := tableGroups_eq_some.mp hok
  have hnone : fallback = none := by
    rw [Bool.not_eq_true, Bool.or_eq_false_iff] at hshape
    exact Option.not_isSome_iff_eq_none.mp (Bool.eq_false_iff.mp hshape.2)
  have hempty : Grouped [] [] := ⟨by simp, by simp, by simp⟩
  exact ⟨hnone, hempty.all hgroups⟩

/-- The edge of a table for a group of branches. -/
private def IsGroup (l : Layout) (group : TableGroup) (edge : Machine.Edge) :
    Prop :=
  edge.key = some (.bytes group.keys) ∧ edge.noAdvance = group.noAdvance
    ∧ edge.value = none
    ∧ l.lands group.target edge.target

/-- One edge for each group branches as the level that was grouped. -/
private theorem Grouped.branching {bs : List (UInt8 × Bool × Trie)}
    {groups : List TableGroup} {edges : List Machine.Edge} {l : Layout}
    {id : NodeId} (h : Grouped bs groups)
    (hedges : List.Forall₂ (IsGroup l) groups edges) :
    l.Branching id bs edges where
  used edge hedge := by
    obtain ⟨group, hgroup, hkey, _⟩ := exists_of_mem_right hedges hedge
    obtain ⟨b, more, hkeys⟩ :=
      List.ne_nil_iff_exists_cons.mp (h.used group hgroup)
    refine ⟨b, ?_⟩
    unfold Machine.Edge.takes
    rw [hkey, hkeys]
    simp
  branch edge hedge b htakes := by
    obtain ⟨group, hgroup, hkey, hstays, hvalue, hlands⟩ :=
      exists_of_mem_right hedges hedge
    unfold Machine.Edge.takes at htakes
    rw [hkey] at htakes
    exact ⟨_, h.branch group hgroup b (List.contains_iff_mem.mp htakes), rfl,
      hstays, hvalue, hlands⟩
  complete x hx := by
    obtain ⟨group, hgroup, hmem⟩ := h.complete x hx
    obtain ⟨edge, hedge, hkey, _⟩ := exists_of_mem_left hedges hgroup
    refine ⟨edge, hedge, ?_⟩
    unfold Machine.Edge.takes
    rw [hkey]
    exact List.contains_iff_mem.mpr hmem

/-- One edge for each branch branches as its level. -/
private theorem branching_of_forall {bs : List (UInt8 × Bool × Trie)}
    {edges : List Machine.Edge} {l : Layout} {id : NodeId}
    (hedges : List.Forall₂ (fun x edge => edge.key = some (.byte x.1)
      ∧ l.IsBranch id x edge)
      bs edges) : l.Branching id bs edges where
  used edge hedge := by
    obtain ⟨x, _, hkey, _⟩ := exists_of_mem_right hedges hedge
    refine ⟨x.1, ?_⟩
    unfold Machine.Edge.takes
    rw [hkey]
    exact beq_self_eq_true x.1
  branch edge hedge b htakes := by
    obtain ⟨x, hx, hkey, hbranch⟩ := exists_of_mem_right hedges hedge
    unfold Machine.Edge.takes at htakes
    rw [hkey] at htakes
    exact ⟨x, hx, beq_iff_eq.mp htakes, hbranch⟩
  complete x hx := by
    obtain ⟨edge, hedge, hkey, _⟩ := exists_of_mem_left hedges hx
    refine ⟨edge, hedge, ?_⟩
    unfold Machine.Edge.takes
    rw [hkey]
    exact beq_self_eq_true x.1

-- =============================================================== parts

/-- A state of a trie that lacks no more than the otherwise edge of its
node. -/
structure Half (l : Layout) (bp : Blueprint) (id : NodeId) (s : StateId)
    (state : Machine.State) :
    Prop where
  part : ∃ t, l.roles[s]? = some (.part id t) ∧ l.Keyed id t state
    ∧ (l.Fallback t state.otherwise
      ∨ l.Closed (bp.graph.node id) t state.otherwise)
  transform : (bp.graph.node id).kind = .dispatch state.transform

/-- A state that lacks its closing edge lacks no more in a larger machine. -/
theorem Half.extend {l l' : Layout} {id : NodeId} {s : StateId}
    {state : Machine.State} (h : Half l bp id s state) (hext : l.Extends l') :
    Half l' bp id s state where
  part := by
    obtain ⟨t, hrole, hkeyed, hother⟩ := h.part
    exact ⟨t, hext.roles _ _ hrole, hext.keyed hkeyed,
      hother.imp hext.fallback hext.closed⟩
  transform := h.transform

/-- States of an assembly that lack no more than the otherwise edge of their
node. -/
def Halves (bp : Blueprint) (a : Assembly) (roles : List Role) (id : NodeId)
    (own : List StateId) : Prop :=
  ∀ x ∈ own, Half (a.layout roles) bp id x (a.machine.state x)

/-- States that lack their closing edges are states of the machine. -/
theorem Halves.lt (h : Tracks bp root pending a roles) {id : NodeId}
    {own : List StateId}
    (hown : Halves bp a roles id own) : ∀ x ∈ own, x < a.machine.size := by
  intro x hx
  obtain ⟨t, hrole, _⟩ := (hown x hx).part
  exact h.lt hrole

/-- They lack no more when the assembly grows. -/
theorem Halves.grow (h : Tracks bp root pending a roles) {id : NodeId}
    {own : List StateId} (hown : Halves bp a roles id own)
    (hgrows : Grows a roles a' roles') :
    Halves bp a' roles' id own := by
  intro x hx
  rw [hgrows.states x (hown.lt h x hx)]
  exact (hown x hx).extend hgrows.layout

/-- The trie of a node may be assembled: at its first state the node is
entered. -/
def Ready (bp : Blueprint) (depth : Nat) (a : Assembly) (id : NodeId)
    (t : Trie) : Prop :=
  (a.unentered ≤ depth ∧ ∃ s, a.stateOf? id = some s)
    ∨ (a.unentered ≤ depth + 1 ∧ a.stateOf? id = none ∧ bp.Builds id t
      ∧ t.Deep)

/-- What the assembly of a trie, or of the branches of one, leaves behind,
apart from its answer. -/
structure PartsDone (bp : Blueprint) (root : NodeId) (pending : StateId → Prop)
    (a : Assembly) (roles : List Role) (id : NodeId) (own : List StateId)
    (a' : Assembly) (roles' : List Role) :
    Prop where
  tracks : Tracks bp root (fun x => pending x ∨ x ∈ own) a' roles'
  grows : Grows a roles a' roles'
  fresh : ∀ x ∈ own, a.machine.size ≤ x
  halves : Halves bp a' roles' id own

/-- What a visit leaves behind is what the assembly of a trie without states
does. -/
theorem partsDone_nil (id : NodeId) (h : Tracks bp root pending a' roles')
    (hgrows : Grows a roles a' roles') :
    PartsDone bp root pending a roles id [] a' roles' where
  tracks := h.settle fun _ _ _ hp hnot => absurd (Or.inl hp) hnot
  grows := hgrows
  fresh _ hx := nomatch hx
  halves _ hx := nomatch hx

/-- Parts one after the other. -/
theorem PartsDone.append {id : NodeId} {own own' : List StateId}
    {a₁ : Assembly} {roles₁ : List Role}
    (h : PartsDone bp root pending a roles id own a₁ roles₁)
    (h' : PartsDone bp root (fun x => pending x ∨ x ∈ own) a₁ roles₁ id own' a'
      roles') :
    PartsDone bp root pending a roles id (own ++ own') a' roles' where
  tracks := h'.tracks.settle fun s role _ hp hnot => by
    refine absurd ?_ hnot
    rcases hp with (hp | hp) | hp
    · exact Or.inl hp
    · exact Or.inr (List.mem_append_left _ hp)
    · exact Or.inr (List.mem_append_right _ hp)
  grows := h.grows.trans h'.grows
  fresh x hx := by
    rcases List.mem_append.mp hx with hx | hx
    · exact h.fresh x hx
    · exact Nat.le_trans h.grows.size (h'.fresh x hx)
  halves x hx := by
    rcases List.mem_append.mp hx with hx | hx
    · exact h.halves.grow h.tracks h'.grows x hx
    · exact h'.halves x hx

/-- A part of a trie in the making: its own state `s`, and the states `own`
below it. -/
structure Opened (bp : Blueprint) (root : NodeId) (pending : StateId → Prop)
    (a : Assembly) (roles : List Role) (id : NodeId) (t : Trie) (s : StateId)
    (own : List StateId) (a' : Assembly) (roles' : List Role) : Prop where
  tracks : Tracks bp root (fun x => pending x ∨ x ∈ s :: own) a' roles'
  grows : Grows a roles a' roles'
  role : roles'[s]? = some (.part id t)
  first : a.machine.size ≤ s
  fresh : ∀ x ∈ own, s < x
  halves : Halves bp a' roles' id own

variable {id : NodeId} {t : Trie} {s : StateId} {own : List StateId}

/-- The state that opens a trie is one of the machine. -/
theorem Opened.lt (h : Opened bp root pending a roles id t s own a' roles') :
    s < a'.machine.size :=
  h.tracks.lt h.role

/-- The state of a part may be changed. -/
theorem Opened.changed
    (h : Opened bp root pending a roles id t s own a' roles')
    (change : Machine.State → Machine.State) :
    Opened bp root pending a roles id t s own (a'.changed s change)
        roles' where
  tracks := h.tracks.changed (Or.inr List.mem_cons_self) change
  grows := h.grows.changed h.first change
  role := h.role
  first := h.first
  fresh := h.fresh
  halves x hx := by
    have hne : s ≠ x := Nat.ne_of_lt (h.fresh x hx)
    rw [state_changed (h.halves.lt h.tracks x hx), if_neg hne]
    exact (h.halves x hx).extend (extends_changed a' roles' s change)

/-- What is assembled meanwhile leaves the state of a part alone. -/
theorem Opened.parts (h : Opened bp root pending a roles id t s own a' roles')
    {b : Assembly} {roles'' : List Role} {more : List StateId}
    (hmore : PartsDone bp root (fun x => pending x ∨ x ∈ s :: own) a' roles' id
      more b roles'') :
    Opened bp root pending a roles id t s (own ++ more) b roles''
      ∧ b.machine.state s = a'.machine.state s where
  left := {
    tracks := hmore.tracks.settle fun x role _ hp hnot => by
      refine absurd ?_ hnot
      rcases hp with (hp | hp) | hp
      · exact Or.inl hp
      · exact Or.inr (List.mem_append_left more hp)
      · exact Or.inr (List.mem_append_right (s :: own) hp)
    grows := h.grows.trans hmore.grows
    role := hmore.grows.layout.roles s _ h.role
    first := h.first
    fresh := fun x hx => by
      rcases List.mem_append.mp hx with hx | hx
      · exact h.fresh x hx
      · exact Nat.lt_of_lt_of_le h.lt (hmore.fresh x hx)
    halves := fun x hx => by
      rcases List.mem_append.mp hx with hx | hx
      · exact h.halves.grow h.tracks hmore.grows x hx
      · exact hmore.halves x hx }
  right := hmore.grows.states s h.lt

/-- Once its state lacks no more than the otherwise edge of the node, a part is
done. -/
theorem Opened.close (h : Opened bp root pending a roles id t s own a' roles')
    (hhalf : Half (a'.layout roles') bp id s (a'.machine.state s)) :
    PartsDone bp root pending a roles id (s :: own) a' roles' where
  tracks := h.tracks
  grows := h.grows
  fresh x hx := by
    rcases List.mem_cons.mp hx with rfl | hx
    · exact h.first
    · exact Nat.le_trans h.first (Nat.le_of_lt (h.fresh x hx))
  halves x hx := by
    rcases List.mem_cons.mp hx with rfl | hx
    · exact hhalf
    · exact h.halves x hx

-- =============================================================== tries

/-- The match node whose trie is assembled is a node that is reached. -/
structure Owned (bp : Blueprint) (root : NodeId) (owner : Blueprint.Owner) :
    Prop where
  reached : bp.graph.Reaches root owner.id
  lt : owner.id < bp.graph.size
  kind : (bp.graph.node owner.id).kind = .dispatch owner.transform

/-- The first state of a trie is entered for its node. -/
theorem addTrieState_answers {owner : Blueprint.Owner}
    (howner : Owned bp root owner) (hwithin : bp.Within owner.id t)
    (hdeep : t.Deep) (h : Tracks bp root pending a roles)
    (hready : Ready bp depth a owner.id t) (kind : Machine.StateKind) :
    Answers (Blueprint.addTrieState owner kind) a fun s b => ∃ roles',
      b.unentered ≤ depth
      ∧ Opened bp root pending a roles owner.id t s [] b roles'
      ∧ (∃ name, b.machine.state s
          = { name, nodeName := owner.name, kind,
              transform := owner.transform })
      ∧ (∃ k, b.stateOf? owner.id = some k)
      ∧ (a.stateOf? owner.id = none → b.stateOf? owner.id = some s) := by
  have hallows : bp.Allows root (.part owner.id t) := by
    refine ⟨howner.reached, fun id' t' heq => ?_⟩
    cases heq
    exact ⟨hdeep, hwithin⟩
  unfold Blueprint.addTrieState
  refine Answers.addState_bind fun name stateNames => Answers.get_bind ?_
  have hpushed := h.pushed hallows stateNames
    { name, nodeName := owner.name, kind, transform := owner.transform }
  have hgrows := grows_pushed a roles (.part owner.id t) stateNames
    { name, nodeName := owner.name, kind, transform := owner.transform }
  have hrole : (roles ++ [Role.part owner.id t])[a.machine.size]?
      = some (.part owner.id t) := by
    rw [← h.size]
    exact List.getElem?_concat_length
  have hstate := Machine.state_push_size a.machine
    { name, nodeName := owner.name, kind, transform := owner.transform }
  generalize hb : a.pushed stateNames
    { name, nodeName := owner.name, kind, transform := owner.transform }
    = b at hpushed hgrows
  have hsame : b.stateOf? owner.id = a.stateOf? owner.id := by rw [← hb]; rfl
  have hstate' : b.machine.state a.machine.size
      = { name, nodeName := owner.name, kind,
          transform := owner.transform } := by
    rw [← hb]
    exact hstate
  have hcount : b.unentered = a.unentered := by rw [← hb]; rfl
  have hpending : Tracks bp root (fun x => pending x ∨ x ∈ [a.machine.size]) b
      (roles ++ [Role.part owner.id t]) :=
    hpushed.settle fun x _ _ hp hnot =>
      absurd (hp.imp id fun heq => List.mem_singleton.mpr heq) hnot
  rcases hready with ⟨hdepth, k, hk⟩ | ⟨hdepth, hnone, hbuilds, _⟩
  · rw [if_neg (by rw [hsame, hk]; exact fun h => nomatch h)]
    refine Answers.pure ⟨roles ++ [.part owner.id t], by
      rw [hcount]; exact hdepth, ?_,
      ⟨name, hstate'⟩, ⟨k, by rw [hsame]; exact hk⟩, fun hnone => by
        rw [hk] at hnone; cases hnone⟩
    exact ⟨hpending, hgrows, hrole, Nat.le_refl _, fun _ hx => (nomatch hx),
      fun _ hx => (nomatch hx)⟩
  · rw [if_pos (by rw [hsame, hnone]; rfl)]
    have hnone' : b.stateOf? owner.id = none := by rw [hsame]; exact hnone
    have hlt : owner.id < b.entered.size := by
      rw [hpushed.nodes]; exact howner.lt
    obtain ⟨htracks, hgrows'⟩ :=
      hpending.entering howner.lt hrole (.part hbuilds) hnone'
    have hentered : (b.entering owner.id a.machine.size).stateOf? owner.id
        = some a.machine.size := by
      rw [stateOf_entering hlt, if_pos rfl]
    have hless := unentered_entering hlt hnone' a.machine.size
    refine Answers.enter_bind
      (Answers.pure ⟨roles ++ [.part owner.id t], ?_, ?_, ⟨name, hstate'⟩,
      ⟨_, hentered⟩, fun _ => hentered⟩)
    · omega
    · exact ⟨htracks, hgrows.trans hgrows', hrole, Nat.le_refl _, fun _ hx =>
        (nomatch hx),
        fun _ hx => (nomatch hx)⟩

section

variable {visit : NodeId → Assemble StateId} {owner : Blueprint.Owner}

/-- Assembling the trie makes a part of it, and answers where an edge into it
leads. -/
private def TrieAnswers (bp : Blueprint) (root : NodeId) (depth : Nat)
    (visit : NodeId → Assemble StateId) (owner : Blueprint.Owner) (t : Trie) :
    Prop :=
  ∀ (pending : StateId → Prop) (a : Assembly) (roles : List Role),
    Tracks bp root pending a roles → bp.Within owner.id t →
      Ready bp depth a owner.id t →
      Answers (bp.trie visit owner t) a fun r b => ∃ roles',
        PartsDone bp root pending a roles owner.id r.2 b roles'
          ∧ (b.layout roles').Below owner.id t r.1
          ∧ (t.Deep → b.unentered ≤ depth
              ∧ (a.stateOf? owner.id = none → b.stateOf? owner.id = some r.1))

/-- Assembling branches answers an edge for each of them. -/
private def BranchesAnswer (bp : Blueprint) (root : NodeId) (depth : Nat)
    (visit : NodeId → Assemble StateId) (owner : Blueprint.Owner)
    (bs : List (UInt8 × Bool × Trie)) : Prop :=
  ∀ (pending : StateId → Prop) (a : Assembly) (roles : List Role),
    Tracks bp root pending a roles → (∀ x ∈ bs, bp.Within owner.id x.2.2) →
      a.unentered ≤ depth → (∃ s, a.stateOf? owner.id = some s) →
        Answers (bp.branches visit owner bs) a fun r b => ∃ roles',
          PartsDone bp root pending a roles owner.id r.2 b roles'
            ∧ List.Forall₂ (fun x edge => edge.key = some (.byte x.1)
                ∧ (b.layout roles').IsBranch owner.id x edge) bs r.1

/-- Visiting where a keyed edge of the node leads. -/
private theorem leaf_answers (hg : bp.graph.Sound)
    (hvisit : Visits bp root depth visit) (howner : Owned bp root owner)
    (h : Tracks bp root pending a roles) (hdepth : a.unentered ≤ depth)
    {n : NodeId}
    (hn : ∃ edge ∈ (bp.graph.node owner.id).edges, edge.target = n) :
    Answers (visit n) a fun s b => ∃ roles', Tracks bp root pending b roles'
      ∧ Grows a roles b roles' ∧ b.stateOf? n = some s := by
  obtain ⟨edge, hedge, rfl⟩ := hn
  exact hvisit.target hg howner.reached (Graph.mem_allEdges.mpr (Or.inl hedge))
    h hdepth

/-- A leaf is built by what its target is. -/
private theorem trieAnswers_leaf (hg : bp.graph.Sound)
    (hvisit : Visits bp root depth visit) (howner : Owned bp root owner)
    (leaf : TrieLeaf) :
    TrieAnswers bp root depth visit owner (.leaf leaf) := by
  intro pending a roles h hwithin hready
  have hdepth : a.unentered ≤ depth := by
    rcases hready with ⟨hdepth, _⟩ | ⟨_, _, _, hdeep⟩
    · exact hdepth
    · exact hdeep.elim
  obtain ⟨edge, hedge, htarget, _⟩ := hwithin.leaf
  unfold Blueprint.trie
  refine (leaf_answers hg hvisit howner h hdepth ⟨edge, hedge, htarget⟩).bind
    ?_
  intro s b hpost
  obtain ⟨roles', htracks, hgrows, hs⟩ := hpost
  exact Answers.pure ⟨roles', partsDone_nil owner.id htracks hgrows, hs,
    fun hdeep => hdeep.elim⟩

/-- A literal is built in front of what stands behind it. -/
private theorem trieAnswers_sequence (howner : Owned bp root owner)
    {literal : List UInt8} {child : Trie}
    (ih : TrieAnswers bp root depth visit owner child) :
    TrieAnswers bp root depth visit owner (.sequence literal child) := by
  intro pending a roles h hwithin hready
  unfold Blueprint.trie
  refine (addTrieState_answers howner hwithin trivial h hready .sequence).bind
    ?_
  intro s b hpost
  obtain ⟨roles₁, hdepth, hopened, ⟨name, hstate⟩, hentered, hfirst⟩ := hpost
  refine (ih _ b roles₁ hopened.tracks hwithin.sequence
    (Or.inl ⟨hdepth, hentered⟩)).bind ?_
  intro answer c hpost
  obtain ⟨target, own⟩ := answer
  obtain ⟨roles₂, hparts, hbelow, _⟩ := hpost
  obtain ⟨hmore, hsame⟩ := hopened.parts hparts
  refine Answers.setEdges_bind
    (Answers.pure ⟨roles₂, (hmore.changed _).close ?_, ?_, ?_⟩)
  · rw [state_changed hmore.lt, if_pos rfl, hsame, hstate]
    refine ⟨⟨_, hmore.role, ?_, Or.inl rfl⟩, howner.kind⟩
    exact ⟨rfl, _, rfl, rfl, rfl, rfl,
      (extends_changed c roles₂ s _).below hbelow⟩
  · exact hmore.role
  · exact fun _ => ⟨Nat.le_trans hparts.grows.unentered hdepth,
      fun hnone => hparts.grows.entered (hfirst hnone)⟩

/-- The visits of the targets of a table give its edges. -/
private theorem tableEdges_answers (hg : bp.graph.Sound)
    (hvisit : Visits bp root depth visit) (howner : Owned bp root owner)
    {bs : List (UInt8 × Bool × Trie)} {fallback : Option TrieLeaf}
    (hwithin : bp.Within owner.id (.single bs fallback))
    {groups : List TableGroup} (hgrouped : Grouped bs groups)
    (h : Tracks bp root pending a roles) (hdepth : a.unentered ≤ depth) :
    Answers (Blueprint.tableEdges visit groups) a fun edges b => ∃ roles',
      Tracks bp root pending b roles' ∧ Grows a roles b roles'
        ∧ List.Forall₂ (IsGroup (b.layout roles')) groups edges := by
  unfold Blueprint.tableEdges
  refine Answers.mapM (R := IsGroup)
    (fun hext hedge =>
      ⟨hedge.1, hedge.2.1, hedge.2.2.1, hext.lands _ _ hedge.2.2.2⟩)
    (fun group hgroup a roles h hdepth => ?_) h hdepth
  obtain ⟨k, more, hkeys⟩ :=
    List.ne_nil_iff_exists_cons.mp (hgrouped.used group hgroup)
  have hbranch := hgrouped.branch group hgroup k (hkeys ▸ List.mem_cons_self)
  obtain ⟨edge, hedge, htarget, _⟩ := (hwithin.branch hbranch).leaf
  refine (leaf_answers hg hvisit howner h hdepth ⟨edge, hedge, htarget⟩).bind
    ?_
  intro target b hpost
  obtain ⟨roles', htracks, hgrows, hs⟩ := hpost
  exact Answers.pure ⟨roles', htracks, hgrows, rfl, rfl, rfl, hs⟩

/-- A level that becomes a table. -/
private theorem trieAnswers_table (hg : bp.graph.Sound)
    (hvisit : Visits bp root depth visit) (howner : Owned bp root owner)
    {bs : List (UInt8 × Bool × Trie)} {fallback : Option TrieLeaf}
    {groups : List TableGroup}
    (hgroups : bp.tableGroups? bs fallback = some groups) :
    TrieAnswers bp root depth visit owner (.single bs fallback) := by
  intro pending a roles h hwithin hready
  obtain ⟨rfl, hgrouped⟩ := grouped_of_tableGroups hgroups
  unfold Blueprint.trie
  rw [hgroups]
  refine (addTrieState_answers howner hwithin trivial h hready .table).bind ?_
  intro s b hpost
  obtain ⟨roles₁, hdepth, hopened, ⟨name, hstate⟩, hentered, hfirst⟩ := hpost
  refine (tableEdges_answers hg hvisit howner hwithin hgrouped hopened.tracks
    hdepth).bind ?_
  intro edges c hpost
  obtain ⟨roles₂, htracks, hgrows, hforall⟩ := hpost
  obtain ⟨hmore, hsame⟩ :=
    hopened.parts (partsDone_nil owner.id htracks hgrows)
  refine Answers.setEdges_bind
    (Answers.pure ⟨roles₂, (hmore.changed _).close ?_, ?_, ?_⟩)
  · rw [state_changed hmore.lt, if_pos rfl, hsame, hstate]
    refine ⟨⟨_, hmore.role, ⟨Or.inr rfl, ?_⟩, Or.inl rfl⟩, howner.kind⟩
    exact (extends_changed c roles₂ s _).branching (hgrouped.branching hforall)
  · exact hmore.role
  · exact fun _ => ⟨Nat.le_trans hgrows.unentered hdepth,
      fun hnone => hgrows.entered (hfirst hnone)⟩

/-- A level that branches byte by byte; the leaf of a key that has ended is
visited last. -/
private theorem trieAnswers_single (hg : bp.graph.Sound)
    (hvisit : Visits bp root depth visit) (howner : Owned bp root owner)
    {bs : List (UInt8 × Bool × Trie)} {fallback : Option TrieLeaf}
    (hgroups : bp.tableGroups? bs fallback = none)
    (ih : BranchesAnswer bp root depth visit owner bs) :
    TrieAnswers bp root depth visit owner (.single bs fallback) := by
  intro pending a roles h hwithin hready
  unfold Blueprint.trie
  rw [hgroups]
  refine (addTrieState_answers howner hwithin trivial h hready .single).bind ?_
  intro s b hpost
  obtain ⟨roles₁, hdepth, hopened, ⟨name, hstate⟩, hentered, hfirst⟩ := hpost
  refine (ih _ b roles₁ hopened.tracks (fun x hx => hwithin.branch hx) hdepth
    hentered).bind ?_
  intro answer c hpost
  obtain ⟨edges, own⟩ := answer
  obtain ⟨roles₂, hparts, hforall⟩ := hpost
  obtain ⟨hmore, hsame⟩ := hopened.parts hparts
  have hmade := hmore.changed ({ · with edges })
  have hbranching := (extends_changed c roles₂ s ({ · with edges })).branching
    (branching_of_forall hforall)
  have hstate' : (c.changed s ({ · with edges })).machine.state s
      = { name, nodeName := owner.name, kind := .single,
          transform := owner.transform, edges } := by
    rw [state_changed hmore.lt, if_pos rfl, hsame, hstate]
  have hfirst' : a.stateOf? owner.id = none →
      (c.changed s ({ · with edges })).stateOf? owner.id = some s :=
    fun hnone => hparts.grows.entered (hfirst hnone)
  have hdepth' : (c.changed s ({ · with edges })).unentered ≤ depth :=
    Nat.le_trans hparts.grows.unentered hdepth
  refine Answers.setEdges_bind ?_
  cases fallback with
  | none =>
      refine Answers.pure ⟨roles₂, hmade.close ?_, hmade.role, fun _ =>
        ⟨hdepth', hfirst'⟩⟩
      rw [hstate']
      exact ⟨⟨_, hmade.role, ⟨Or.inl rfl, hbranching⟩, Or.inl rfl⟩,
        howner.kind⟩
  | some leaf =>
      obtain ⟨edge, hedge, htarget, _⟩ := hwithin.fallback
      refine (leaf_answers hg hvisit howner hmade.tracks hdepth'
        ⟨edge, hedge, htarget⟩).bind ?_
      intro target d hpost
      obtain ⟨roles₃, htracks, hgrows, htarget⟩ := hpost
      obtain ⟨hlast, hsame'⟩ :=
        hmade.parts (partsDone_nil owner.id htracks hgrows)
      rw [List.append_nil] at hlast
      refine Answers.setOtherwise_bind
        (Answers.pure ⟨roles₃, (hlast.changed _).close ?_,
        hlast.role, fun _ => ⟨Nat.le_trans hgrows.unentered hdepth',
          fun hnone => hgrows.entered (hfirst' hnone)⟩⟩)
      rw [state_changed hlast.lt, if_pos rfl, hsame', hstate']
      refine ⟨⟨_, hlast.role, ⟨Or.inl rfl, ?_⟩,
        Or.inl ⟨_, rfl, rfl, rfl, htarget⟩⟩, howner.kind⟩
      exact (extends_changed d roles₃ s _).branching
        (hgrows.layout.branching hbranching)

private theorem branchesAnswer_nil :
    BranchesAnswer bp root depth visit owner [] := by
  intro pending a roles h _ _ _
  unfold Blueprint.branches
  exact Answers.pure ⟨roles, partsDone_nil owner.id h Grows.refl, .nil⟩

/-- Branches are built one after another. -/
private theorem branchesAnswer_cons {key : UInt8} {noAdvance : Bool}
    {child : Trie} {bs : List (UInt8 × Bool × Trie)}
    (ih : TrieAnswers bp root depth visit owner child)
    (ihrest : BranchesAnswer bp root depth visit owner bs) :
    BranchesAnswer bp root depth visit owner
        ((key, noAdvance, child) :: bs) := by
  intro pending a roles h hwithin hdepth hentered
  unfold Blueprint.branches
  refine (ih pending a roles h (hwithin _ List.mem_cons_self)
    (Or.inl ⟨hdepth, hentered⟩)).bind ?_
  intro answer b hpost
  obtain ⟨target, own⟩ := answer
  obtain ⟨roles₁, hparts, hbelow, _⟩ := hpost
  obtain ⟨k, hk⟩ := hentered
  refine (ihrest _ b roles₁ hparts.tracks
    (fun x hx => hwithin x (List.mem_cons_of_mem _ hx))
    (Nat.le_trans hparts.grows.unentered hdepth)
      ⟨k, hparts.grows.entered hk⟩).bind ?_
  intro answer c hpost
  obtain ⟨edges, more⟩ := answer
  obtain ⟨roles₂, hmore, hforall⟩ := hpost
  refine Answers.pure
    ⟨roles₂, hparts.append hmore, .cons ⟨rfl, rfl, rfl, ?_⟩ hforall⟩
  exact hmore.grows.layout.below hbelow

mutual

private theorem trieAnswers (hg : bp.graph.Sound)
    (hvisit : Visits bp root depth visit) (howner : Owned bp root owner) :
    ∀ t : Trie, TrieAnswers bp root depth visit owner t
  | .leaf leaf => trieAnswers_leaf hg hvisit howner leaf
  | .sequence _ child =>
    trieAnswers_sequence howner (trieAnswers hg hvisit howner child)
  | .single bs fallback => by
      cases hgroups : bp.tableGroups? bs fallback with
      | some groups => exact trieAnswers_table hg hvisit howner hgroups
      | none =>
          exact trieAnswers_single hg hvisit howner hgroups
            (branchesAnswer hg hvisit howner bs)

private theorem branchesAnswer (hg : bp.graph.Sound)
    (hvisit : Visits bp root depth visit) (howner : Owned bp root owner) :
    ∀ bs : List (UInt8 × Bool × Trie),
      BranchesAnswer bp root depth visit owner bs
  | [] => branchesAnswer_nil
  | (_, _, child) :: bs =>
      branchesAnswer_cons (trieAnswers hg hvisit howner child)
        (branchesAnswer hg hvisit howner bs)

end

/-- Assembling the trie of a node makes its states, all but the otherwise edge
of the node. -/
theorem trie_answers (hg : bp.graph.Sound)
    (hvisit : Visits bp root depth visit) (howner : Owned bp root owner)
    (h : Tracks bp root pending a roles) (hwithin : bp.Within owner.id t)
    (hready : Ready bp depth a owner.id t) :
    Answers (bp.trie visit owner t) a fun r b => ∃ roles',
      PartsDone bp root pending a roles owner.id r.2 b roles'
        ∧ (b.layout roles').Below owner.id t r.1
        ∧ (t.Deep → b.unentered ≤ depth
            ∧ (a.stateOf? owner.id = none → b.stateOf? owner.id = some r.1)) :=
  trieAnswers hg hvisit howner t pending a roles h hwithin hready

end

-- ============================================================== filling

/-- What the otherwise edge of a node fills, if there is a gap. -/
private theorem closed_fill {l : Layout} {node : Node}
    {otherwise : Option Machine.Edge}
    (h : l.Fallback t otherwise ∨ l.Closed node t otherwise) {edge : Edge}
    {edge' : Machine.Edge} (hnode : node.otherwise = some edge)
    (hedge : l.IsOtherwise edge edge') :
    l.Closed node t (if otherwise.isNone then some edge' else otherwise) := by
  have hdefault : ∃ e e', node.otherwise = some e ∧ some edge' = some e'
      ∧ l.IsOtherwise e e' :=
    ⟨edge, edge', hnode, rfl, hedge⟩
  rcases h with hfallback | hclosed
  · match t with
    | .leaf leaf =>
        obtain rfl := hfallback
        exact hdefault
    | .sequence literal child =>
        obtain rfl := hfallback
        exact hdefault
    | .single bs none =>
        obtain rfl := hfallback
        exact hdefault
    | .single bs (some leaf) =>
        obtain ⟨e, rfl, hlike⟩ := hfallback
        exact ⟨e, rfl, hlike⟩
  · obtain ⟨e, e', hclosing, rfl, hlike⟩ := Layout.closed_iff.mp hclosed
    exact Layout.closed_iff.mpr ⟨e, e', hclosing, rfl, hlike⟩

/-- A state that lacks no more than the otherwise edge of its node lacks
nothing once it has it. -/
private theorem Half.fill {l : Layout} {state : Machine.State}
    (h : Half l bp id s state) {edge : Edge} {edge' : Machine.Edge}
    (hnode : (bp.graph.node id).otherwise = some edge)
    (hedge : l.IsOtherwise edge edge') :
    ∃ t, l.roles[s]? = some (.part id t) ∧ l.Realizes bp (.part id t)
      (if state.otherwise.isNone then { state with otherwise := some edge' }
          else state) := by
  obtain ⟨⟨t, hrole, hkeyed, hother⟩, htransform⟩ := h
  have hclosed := closed_fill hother hnode hedge
  refine ⟨t, hrole, ?_⟩
  have hsame : l.Keyed id t
      (if state.otherwise.isNone then { state with otherwise := some edge' }
          else state) := by
    split
    · cases t <;> exact hkeyed
    · exact hkeyed
  cases hstate : state.otherwise with
  | none =>
      rw [hstate] at hclosed hsame
      exact .part htransform hsame hclosed
  | some old =>
      rw [hstate] at hclosed hsame
      refine .part htransform hsame ?_
      have hold : (if (some old : Option Machine.Edge).isNone then
          { state with otherwise := some edge' } else state).otherwise
            = some old := hstate
      rw [hold]
      exact hclosed

/-- With the otherwise edge of its node filled in, a trie is done. -/
theorem fill_answers {a₀ : Assembly} {roles₀ : List Role}
    (hown : Halves bp a roles id own)
    (h : Tracks bp root (fun x => pending x ∨ x ∈ own) a roles)
    (hgrows : Grows a₀ roles₀ a roles)
    (hfresh : ∀ x ∈ own, a₀.machine.size ≤ x) {edge : Edge}
    {edge' : Machine.Edge} (hnode : (bp.graph.node id).otherwise = some edge)
    (hedge : (a.layout roles).IsOtherwise edge edge') :
    Answers (own.forM (fillOtherwise edge')) a fun _ b => Tracks bp root
      pending b roles
      ∧ Grows a₀ roles₀ b roles
          ∧ (a.layout roles).Extends (b.layout roles) := by
  induction own generalizing a with
  | nil =>
      refine Answers.pure ⟨h.settle fun x _ _ hp hnot => absurd hp ?_, hgrows,
        Grows.refl.layout⟩
      exact fun hp => hp.elim hnot fun hmem => nomatch hmem
  | cons x own ih =>
      refine Answers.fillOtherwise_bind ?_
      generalize hchange : (fun state : Machine.State =>
        if state.otherwise.isNone then { state with otherwise := some edge' }
        else state) = change
      have hlt := hown.lt h
      have hext := extends_changed a roles x change
      have hxstate : (a.changed x change).machine.state x
          = change (a.machine.state x) := by
        rw [state_changed (hlt x List.mem_cons_self), if_pos rfl]
      obtain ⟨t, hrole, hdone⟩ : ∃ t, roles[x]? = some (.part id t)
          ∧ (a.layout roles).Realizes bp (.part id t)
              (change (a.machine.state x)) := by
        rw [← hchange]
        exact (hown x List.mem_cons_self).fill hnode hedge
      have hdone' : ((a.changed x change).layout roles).Realizes
          bp (.part id t)
          ((a.changed x change).machine.state x) := by
        rw [hxstate]
        exact hext.realizes hdone
      refine (ih (fun y hy => ?_) ?_
        (hgrows.changed (hfresh x List.mem_cons_self) change)
        (fun y hy => hfresh y (List.mem_cons_of_mem x hy))
          (hext.isOtherwise hedge)).mono ?_
      · -- a state that is listed again has been filled already
        by_cases hxy : x = y
        · subst hxy
          cases hdone' with
          | part transform keyed otherwise =>
              exact ⟨⟨t, hrole, keyed, Or.inr otherwise⟩, transform⟩
        · rw [state_changed (hlt y (List.mem_cons_of_mem x hy)), if_neg hxy]
          exact (hown y (List.mem_cons_of_mem x hy)).extend hext
      · refine (h.changed (Or.inr List.mem_cons_self) change).settle
          fun y role hy hp hnot => ?_
        have hyx : y = x := by
          rcases hp with hp | hp
          · exact absurd (Or.inl hp) hnot
          · exact (List.mem_cons.mp hp).resolve_right fun hmem =>
              hnot (Or.inr hmem)
        subst hyx
        obtain rfl := Option.some.inj (hrole.symm.trans hy)
        exact hdone'
      · intro _ b hpost
        obtain ⟨htracks, hb, hextends⟩ := hpost
        exact ⟨htracks, hb, hext.trans hextends⟩

end Assembly

end Bytewise

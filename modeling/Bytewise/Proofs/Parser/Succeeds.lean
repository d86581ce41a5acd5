/-
The assembly of a graph that breaks no rule succeeds.

Every visit is of a node that is reached, so the rules hold of it; what is
passed down a trie is that its parts are in form and that its leaves lead
along edges of the node. Nothing has to be said of depth: a visit that
runs out of it answers as well.
-/
import Bytewise.Proofs.Parser.Formed

namespace Bytewise

namespace Assembly

open Blueprint (TableGroup addToGroups groupBranches)

variable {bp : Blueprint} {root : NodeId} {a : Assembly}
  {visit : NodeId → Assemble StateId}

-- ============================================================== tables

/-- A branch is put to the group of its target, or begins one. -/
private theorem targets_addToGroups {key : UInt8} {noAdvance : Bool}
    {target : NodeId} {groups groups' : List TableGroup}
    (hok : addToGroups key noAdvance target groups = some groups') :
    groups'.map (·.target)
      = groups.map (·.target) ++ firsts (groups.map (·.target)) [target] := by
  induction groups generalizing groups' with
  | nil =>
      obtain rfl := Option.some.inj hok
      rfl
  | cons group groups ih =>
      unfold addToGroups at hok
      by_cases hsame : group.target = target
      · rw [if_pos (beq_iff_eq.mpr hsame)] at hok
        have hmem : target ∈ (group :: groups).map (·.target) :=
          List.mem_map.mpr ⟨group, List.mem_cons_self, hsame⟩
        rw [firsts_cons_of_mem hmem]
        split at hok
        · obtain rfl := Option.some.inj hok
          simp [firsts]
        · cases hok
      · rw [if_neg fun h => hsame (beq_iff_eq.mp h)] at hok
        obtain ⟨more, hmore, rfl⟩ := Option.map_eq_some_iff.mp hok
        rw [List.map_cons, ih hmore, List.map_cons, List.cons_append]
        congr 2
        by_cases hmem : target ∈ groups.map (·.target)
        · rw [firsts_cons_of_mem hmem, firsts_cons_of_mem
            (List.mem_cons_of_mem _ hmem)]
          rfl
        · have hnew : target ∉ group.target :: groups.map (·.target) := by
            rw [List.mem_cons]
            exact fun h => h.elim (fun heq => hsame heq.symm) hmem
          rw [firsts_cons_of_notMem hmem, firsts_cons_of_notMem hnew]
          rfl

/-- A level of a trie all of whose branches are leaves without a value: their
bytes, whether they stay unread, and where they lead. -/
def leaves (ls : List (UInt8 × Bool × NodeId)) : List (UInt8 × Bool × Trie) :=
  ls.map fun l => (l.1, l.2.1, .leaf ⟨l.2.2, none⟩)

/-- What can be grouped are leaves, and their targets have groups in the order
in which they first occur. -/
theorem leaves_of_groupBranches {bs : List (UInt8 × Bool × Trie)}
    {groups groups' : List TableGroup}
    (hok : groupBranches bs groups = some groups') :
    ∃ ls, bs = leaves ls ∧ groups'.map (·.target)
      = groups.map (·.target) ++ firsts (groups.map (·.target))
          (ls.map (·.2.2)) := by
  induction bs generalizing groups with
  | nil =>
      obtain rfl := Option.some.inj hok
      exact ⟨[], rfl, (List.append_nil _).symm⟩
  | cons x bs ih =>
      obtain ⟨target, more, hleaf, hadd, hrest⟩ := groupBranches_cons hok
      obtain ⟨key, noAdvance, child⟩ := x
      obtain rfl : child = .leaf ⟨target, none⟩ := hleaf
      obtain ⟨ls, rfl, htargets⟩ := ih hrest
      refine ⟨(key, noAdvance, target) :: ls, rfl, ?_⟩
      rw [htargets, targets_addToGroups hadd, List.append_assoc]
      refine congrArg _ ?_
      show _ = firsts _ ([target] ++ ls.map (·.2.2))
      rw [firsts_append]
      refine congrArg _ (firsts_congr fun n => ?_)
      rw [List.mem_append, List.mem_append, mem_firsts]
      tauto

/-- What a table looks a byte up in: few lists of bytes, none empty, no two
with a byte in common. -/
private theorem keysFit_table {bs : List (UInt8 × Bool × Trie)}
    {fallback : Option TrieLeaf} {groups : List TableGroup}
    (hascending : (bs.map (·.1)).Pairwise (· < ·))
    (hgroups : bp.tableGroups? bs fallback = some groups)
    {edges : List Machine.Edge}
    (hedges : List.Forall₂
      (fun group edge => edge.key = some (.bytes group.keys)) groups edges) :
    Machine.StateKind.table.KeysFit bp.options.maxTableTargets
        (edges.map (·.key)) := by
  obtain ⟨_, hgrouped⟩ := grouped_of_tableGroups hgroups
  obtain ⟨⟨_, hmade⟩, hfew⟩ := tableGroups_eq_some.mp hgroups
  have htargets : (groups.map (·.target)).Nodup := by
    obtain ⟨ls, _, hfirsts⟩ := leaves_of_groupBranches hmade
    rw [hfirsts]
    exact nodup_firsts
  refine ⟨groups.map (·.keys), ?_, by simpa using hfew, ?_, ?_⟩
  · clear htargets hgrouped hgroups hmade hfew
    induction hedges with
    | nil => rfl
    | cons hkey _ ih => simp [hkey, ih]
  · intro keys hkeys
    obtain ⟨group, hgroup, rfl⟩ := List.mem_map.mp hkeys
    exact hgrouped.used group hgroup
  · refine List.pairwise_map.mpr
      ((List.pairwise_map.mp htargets).imp_of_mem ?_)
    intro g h hg hh hne b hbg hbh
    -- one byte has one branch, and with it one target
    have hnodup : (bs.map (·.1)).Nodup :=
      hascending.imp fun hlt => UInt8.ne_of_lt hlt
    have hsame := List.inj_on_of_nodup_map hnodup (hgrouped.branch g hg b hbg)
      (hgrouped.branch h hh b hbh) rfl
    simp only [Prod.mk.injEq, Trie.leaf.injEq, TrieLeaf.mk.injEq, true_and,
      and_true] at hsame
    exact hne hsame.2

-- =============================================================== tries

/-- A way to visit nodes that are reached, which keeps assemblies in form. -/
def VisitForms (bp : Blueprint) (root : NodeId)
    (visit : NodeId → Assemble StateId) : Prop :=
  ∀ n a, bp.graph.Reaches root n → Formed bp root a →
    Forms bp root (visit n) a fun _ _ => True

/-- A visit of where a keyed edge of a node leads. -/
theorem VisitForms.keyed (hvisit : VisitForms bp root visit) {n m : NodeId}
    (hreach : bp.graph.Reaches root n)
    (hm : ∃ edge ∈ (bp.graph.node n).edges, edge.target = m)
    (h : Formed bp root a) : Forms bp root (visit m) a fun _ _ => True := by
  obtain ⟨edge, hedge, rfl⟩ := hm
  exact hvisit _ a
    (hreach.step (Graph.leads_of_edge (Graph.mem_allEdges.mpr (Or.inl hedge))))
    h

section

variable {owner : Blueprint.Owner}

/-- A state for a trie is made of its kind. -/
theorem addTrieState_forms (h : Formed bp root a) (kind : Machine.StateKind) :
    Forms bp root (Blueprint.addTrieState owner kind) a fun s b =>
        b.Made s kind := by
  unfold Blueprint.addTrieState
  refine (addState_forms h owner.name kind owner.transform).bind
      fun s b hb _ hmade =>
    Forms.get_bind ?_
  split
  · refine (enter_forms hb owner.id s).bind fun _ c hc hkept _ => ?_
    exact Forms.pure hc (hmade.keep hkept)
  · exact Forms.pure hb hmade

private theorem tableEdges_forms (hvisit : VisitForms bp root visit)
    (hreach : bp.graph.Reaches root owner.id) {bs : List (UInt8 × Bool × Trie)}
    {fallback : Option TrieLeaf}
    (hwithin : bp.Within owner.id (.single bs fallback))
    {groups : List TableGroup} (hgrouped : Grouped bs groups)
    (h : Formed bp root a) :
    Forms bp root (Blueprint.tableEdges visit groups) a fun edges _ =>
      List.Forall₂ (fun group edge => edge.key = some (.bytes group.keys))
          groups edges := by
  unfold Blueprint.tableEdges
  refine Forms.mapM (fun group hgroup b hb => ?_) h
  obtain ⟨k, more, hkeys⟩ :=
    List.ne_nil_iff_exists_cons.mp (hgrouped.used group hgroup)
  have hbranch := hgrouped.branch group hgroup k (hkeys ▸ List.mem_cons_self)
  obtain ⟨edge, hedge, htarget, _⟩ := (hwithin.branch hbranch).leaf
  refine (hvisit.keyed hreach ⟨edge, hedge, htarget⟩ hb).bind
    fun target c hc _ _ => ?_
  exact Forms.pure hc rfl

mutual

private theorem trie_forms (hvisit : VisitForms bp root visit)
    (hreach : bp.graph.Reaches root owner.id) : ∀ (t : Trie) (a : Assembly),
    Formed bp root a →
      bp.Within owner.id t → t.Formed →
        Forms bp root (bp.trie visit owner t) a fun _ _ => True
  | .leaf leaf, a, h, hwithin, _ => by
      obtain ⟨edge, hedge, htarget, _⟩ := hwithin.leaf
      unfold Blueprint.trie
      refine (hvisit.keyed hreach ⟨edge, hedge, htarget⟩ h).bind
        fun s b hb _ _ => ?_
      exact Forms.pure hb trivial
  | .sequence literal child, a, h, hwithin, hform => by
      cases hform with
      | sequence long below =>
          unfold Blueprint.trie
          refine (addTrieState_forms h .sequence).bind fun s b hb _ hmade => ?_
          refine (trie_forms hvisit hreach child b hb hwithin.sequence
            below).bind fun answer c hc hkept _ => ?_
          refine (setEdges_forms hc (hmade.keep hkept)
            ⟨literal, rfl, long⟩).bind
            fun _ d hd _ _ => ?_
          exact Forms.pure hd trivial
  | .single bs fallback, a, h, hwithin, hform => by
      cases hform with
      | single ascending below =>
          unfold Blueprint.trie
          cases hgroups : bp.tableGroups? bs fallback with
          | some groups =>
              refine (addTrieState_forms h .table).bind
                fun s b hb _ hmade => ?_
              refine (tableEdges_forms hvisit hreach hwithin
                (grouped_of_tableGroups hgroups).2
                hb).bind fun edges c hc hkept hedges => ?_
              refine (setEdges_forms hc (hmade.keep hkept)
                (keysFit_table ascending hgroups hedges)).bind
                fun _ d hd _ _ => ?_
              exact Forms.pure hd trivial
          | none =>
              refine (addTrieState_forms h .single).bind
                fun s b hb _ hmade => ?_
              refine (branches_forms hvisit hreach bs b hb
                (fun x hx => hwithin.branch hx)
                below).bind fun answer c hc hkept hkeys => ?_
              refine (setEdges_forms hc (hmade.keep hkept)
                ⟨bs.map (·.1), by
                  rw [hkeys, List.map_map]; rfl, ascending⟩).bind
                  fun _ d hd _ _ => ?_
              cases fallback with
              | none => exact Forms.pure hd trivial
              | some leaf =>
                  obtain ⟨edge, hedge, htarget, _⟩ := hwithin.fallback
                  refine (hvisit.keyed hreach ⟨edge, hedge, htarget⟩ hd).bind
                    fun target e he _ _ => ?_
                  refine (setOtherwise_forms he _ _).bind fun _ f hf _ _ => ?_
                  exact Forms.pure hf trivial

private theorem branches_forms (hvisit : VisitForms bp root visit)
    (hreach : bp.graph.Reaches root owner.id) :
    ∀ (bs : List (UInt8 × Bool × Trie)) (a : Assembly),
      Formed bp root a → (∀ x ∈ bs, bp.Within owner.id x.2.2) →
        (∀ x ∈ bs, x.2.2.Formed) →
        Forms bp root (bp.branches visit owner bs) a fun r _ =>
          r.1.map (·.key) = bs.map fun x => some (.byte x.1)
  | [], a, h, _, _ => by
      unfold Blueprint.branches
      exact Forms.pure h rfl
  | (key, noAdvance, child) :: bs, a, h, hwithin, hform => by
      unfold Blueprint.branches
      refine (trie_forms hvisit hreach child a h (hwithin _ List.mem_cons_self)
        (hform _ List.mem_cons_self)).bind fun answer b hb _ _ => ?_
      refine (branches_forms hvisit hreach bs b hb
        (fun x hx => hwithin x (List.mem_cons_of_mem _ hx))
        (fun x hx => hform x (List.mem_cons_of_mem _ hx))).bind
          fun rest c hc _ hkeys => ?_
      refine Forms.pure hc ?_
      rw [List.map_cons, List.map_cons, hkeys]

end

end

-- ========================================================= match nodes

/-- Edges whose keys are bytes are entries. -/
theorem mapM_trieEntry_ok {name : String} {edges : List Edge}
    (h : ∀ edge ∈ edges, ∃ bs, edge.key = some (.bytes bs)) :
    edges.mapM (Blueprint.trieEntry name)
        = .ok (edges.filterMap Edge.entry?) := by
  induction edges with
  | nil => rfl
  | cons edge edges ih =>
      obtain ⟨bs, hbs⟩ := h edge List.mem_cons_self
      have hsome : edge.entry?
          = some ⟨bs, edge.target, edge.noAdvance, edge.value⟩ :=
        entry?_eq_some.mpr ⟨hbs, rfl, rfl, rfl⟩
      have hentry : Blueprint.trieEntry name edge
          = .ok ⟨bs, edge.target, edge.noAdvance, edge.value⟩ := by
        unfold Blueprint.trieEntry
        rw [hbs]
      rw [List.mapM_cons, hentry, List.filterMap_cons_some hsome,
        ih fun e he => h e (List.mem_cons_of_mem _ he)]
      rfl

/-- What is left to do for a match node that has a trie. -/
private theorem trieNode_forms {owner : Blueprint.Owner}
    (hvisit : VisitForms bp root visit)
    (hreach : bp.graph.Reaches root owner.id) {t : Trie}
    (hwithin : bp.Within owner.id t) (hform : t.Formed) {edge : Edge}
    (htarget : bp.graph.Reaches root edge.target) (h : Formed bp root a) :
    Forms bp root (do
      let (state, own) ← bp.trie visit owner t
      let edge := Machine.Edge.otherwise (← visit edge.target) edge.noAdvance
      own.forM (fillOtherwise edge)
      return state) a fun _ _ => True := by
  refine (trie_forms hvisit hreach t a h hwithin hform).bind
    fun r b hb _ _ => ?_
  refine (hvisit _ b htarget hb).bind fun target c hc _ _ => ?_
  refine (Forms.forM (fun s _ d hd => fillOtherwise_forms hd s _) hc).bind
    fun _ d hd _ _ => ?_
  exact Forms.pure hd trivial

private theorem matchNode_forms (hg : bp.graph.Sound)
    (hacc : bp.graph.Accepted root) (hvisit : VisitForms bp root visit)
    {n : NodeId} (hreach : bp.graph.Reaches root n) {t : Option Transform}
    (hkind : (bp.graph.node n).kind = .dispatch t) (h : Formed bp root a) :
    Forms bp root (bp.matchNode visit ⟨n, (bp.graph.node n).name, t⟩) a
        fun _ _ => True := by
  obtain ⟨edge, hother⟩ := hacc.exists_otherwise hreach (by simp [hkind])
  have hmem := Graph.mem_allEdges.mpr (Or.inr hother)
  have hn := Graph.lt_of_mem_allEdges hmem
  have htarget : bp.graph.Reaches root edge.target :=
    hreach.step (Graph.leads_of_edge hmem)
  have hkeys : ∀ edge ∈ (bp.graph.node n).edges, ∃ bs,
      edge.key = some (.bytes bs) := by
    intro e he
    have hfits := (hg.nodes n hn).keyed e he
    rw [hkind] at hfits
    obtain ⟨bs, hbs, _⟩ := hfits
    exact ⟨bs, hbs⟩
  obtain ⟨built, hbuilt, hform⟩ :=
    @Trie.build_succeeds (bp.graph.node n).name _
    (hg.nodes n hn).entries_distinct (hacc.peeksApart hg hreach hn hkind)
      (entries_ne_nil hg)
  unfold Blueprint.matchNode
  dsimp only
  rw [hother]
  refine Forms.mapM_lift_bind (mapM_trieEntry_ok hkeys)
    (Forms.lift_bind hbuilt ?_)
  match built, hbuilt, hform with
  | none, _, _ =>
      refine (addState_forms h _ _ _).bind fun s b hb _ _ => ?_
      refine (enter_forms hb _ _).bind fun _ c hc _ _ => ?_
      refine (hvisit _ c htarget hc).bind fun target d hd _ _ => ?_
      refine (setOtherwise_forms hd _ _).bind fun _ e he _ _ => ?_
      exact Forms.pure he trivial
  | some (.leaf leaf), hbuilt, _ =>
      exact ((top_of_builds hg hn
        (show bp.Builds n (.leaf leaf) from hbuilt)).1).elim
  | some (.sequence literal child), hbuilt, hform =>
      have hwithin := Blueprint.Builds.within hg hn hbuilt
      exact trieNode_forms hvisit hreach hwithin (hform _ rfl) htarget h
  | some (.single bs fallback), hbuilt, hform =>
      have hwithin := Blueprint.Builds.within hg hn hbuilt
      exact trieNode_forms hvisit hreach hwithin (hform _ rfl) htarget h

-- ========================================================= other nodes

/-- A span that is started has its slot. -/
private theorem spanSlot_forms (hg : bp.graph.Sound)
    (hacc : bp.graph.Accepted root)
    (hspans : bp.graph.allocateSpans root = .ok bp.spans) {span : SpanId}
    (hstarted : ∃ n, bp.graph.Reaches root n
      ∧ (bp.graph.node n).kind = .spanStart span)
    (h : Formed bp root a) (name : String) :
    Forms bp root (bp.spanSlot span name) a fun _ _ => True := by
  obtain ⟨slot, hslot⟩ := (hg.exists_slot hspans).mpr hstarted
  obtain ⟨n, hreach, hkind⟩ := hstarted
  unfold Blueprint.spanSlot
  rw [hslot]
  refine (addCode_forms h hacc (.span hreach hkind)).bind
    fun callback b hb _ _ => ?_
  exact Forms.pure hb trivial

/-- The kind of a reached node is settled. -/
private theorem stateKind_forms (hg : bp.graph.Sound)
    (hacc : bp.graph.Accepted root)
    (hspans : bp.graph.allocateSpans root = .ok bp.spans) {n : NodeId}
    (hreach : bp.graph.Reaches root n) (hn : n < bp.graph.size)
    (h : Formed bp root a) :
    Forms bp root (bp.stateKind (bp.graph.node n).name (bp.graph.node n).kind)
        a fun kind _ =>
      ∀ ref, (bp.graph.node n).kind = .invoke ref →
          ∃ callee, kind = .invoke callee := by
  have hfits := (hg.nodes n hn).kind
  unfold Blueprint.stateKind
  cases hkind : (bp.graph.node n).kind with
  | dispatch t => exact Forms.pure h fun _ heq => nomatch heq
  | error code reason => exact Forms.pure h fun _ heq => nomatch heq
  | pause code reason => exact Forms.pure h fun _ heq => nomatch heq
  | consume field => exact Forms.pure h fun _ heq => nomatch heq
  | invoke ref =>
      rw [hkind] at hfits
      dsimp only
      rw [if_neg (by simpa using hfits.2)]
      refine (addCode_forms h hacc (.invoke hreach hkind)).bind
        fun callee b hb _ _ => ?_
      exact Forms.pure hb fun _ _ => ⟨callee, rfl⟩
  | spanStart span =>
      refine (spanSlot_forms hg hacc hspans ⟨n, hreach, hkind⟩ h _).bind
        fun answer b hb _ _ => ?_
      exact Forms.pure hb fun _ heq => nomatch heq
  | spanEnd span =>
      refine (spanSlot_forms hg hacc hspans (hacc.ends n span hreach hkind)
        h _).bind fun answer b hb _ _ => ?_
      exact Forms.pure hb fun _ heq => nomatch heq

/-- The edges of an invoke state have the return codes of the node, each
once. -/
private theorem codeEdges_forms (hg : bp.graph.Sound)
    (hvisit : VisitForms bp root visit) {n : NodeId}
    (hreach : bp.graph.Reaches root n) (hn : n < bp.graph.size) {ref : CodeRef}
    (hkind : (bp.graph.node n).kind = .invoke ref) (h : Formed bp root a)
    (name : String) (callee : CodeId) :
    Forms bp root
        ((bp.graph.node n).edges.mapM (Blueprint.codeEdge visit name)) a
        fun edges _ =>
      (Machine.StateKind.invoke callee).KeysFit bp.options.maxTableTargets
        (edges.map (·.key)) := by
  refine (Forms.mapM (R := fun e e' => ∃ code, e.key = some (.code code)
    ∧ e'.key = some (.code code)) (fun edge hedge b hb => ?_) h).mono
      fun edges b _ hedges => ?_
  · have hfits := (hg.nodes n hn).keyed edge hedge
    rw [hkind] at hfits
    obtain ⟨⟨code, hcode⟩, _⟩ := hfits
    unfold Blueprint.codeEdge
    rw [hcode]
    refine (hvisit.keyed hreach ⟨edge, hedge, rfl⟩ hb).bind
      fun target c hc _ _ => ?_
    exact Forms.pure hc ⟨code, rfl, rfl⟩
  · have hdistinct := (hg.nodes n hn).distinct
    generalize (bp.graph.node n).edges = sources at hedges hdistinct
    induction hedges with
    | nil => exact ⟨[], rfl, .nil⟩
    | @cons e e' sources edges hboth hrest ih =>
        obtain ⟨code, hcode, hcode'⟩ := hboth
        obtain ⟨hnew, hdistinct⟩ := List.pairwise_cons.mp hdistinct
        obtain ⟨codes, hcodes, hnodup⟩ := ih hdistinct
        refine ⟨code :: codes, by simp [hcode', hcodes],
          List.nodup_cons.mpr ⟨fun hmem => ?_, hnodup⟩⟩
        -- a code that came twice would be the key of two edges of the node
        have hkey : some (.code code) ∈ edges.map (·.key) := by
          rw [hcodes]
          exact List.mem_map_of_mem hmem
        obtain ⟨edge', hedge', heq⟩ := List.mem_map.mp hkey
        obtain ⟨edge, hedge, code', hsource, hsame⟩ :=
          exists_of_mem_right hrest hedge'
        rw [hsame] at heq
        obtain rfl := Machine.Key.code.inj (Option.some.inj heq)
        exact hnew edge hedge (hcode.trans hsource.symm)

/-- The keyed edges of a state for a node that is no match node succeed. -/
private theorem plainEdges_forms (hg : bp.graph.Sound)
    (hvisit : VisitForms bp root visit) {n : NodeId}
    (hreach : bp.graph.Reaches root n) (hn : n < bp.graph.size)
    (h : Formed bp root a) {s : StateId} {kind : Machine.StateKind}
    (hmade : a.Made s kind)
    (hinvokes : ∀ ref, (bp.graph.node n).kind = .invoke ref →
      ∃ callee, kind = .invoke callee)
    {name : String} :
    Forms bp root (match (bp.graph.node n).kind with
      | .invoke _ => do
          setEdges s
            (← (bp.graph.node n).edges.mapM (Blueprint.codeEdge visit name))
          return s
      | _ => return s) a fun _ _ => True := by
  split
  · rename_i ref hkind
    obtain ⟨callee, rfl⟩ := hinvokes ref hkind
    refine (codeEdges_forms hg hvisit hreach hn hkind h _ callee).bind
      fun edges f hf hkept hkeys => ?_
    refine (setEdges_forms hf (hmade.keep hkept) hkeys).bind
      fun _ k hk _ _ => ?_
    exact Forms.pure hk trivial
  · exact Forms.pure h trivial

/-- Building any other node succeeds. -/
private theorem plainNode_forms (hg : bp.graph.Sound)
    (hacc : bp.graph.Accepted root)
    (hspans : bp.graph.allocateSpans root = .ok bp.spans)
    (hvisit : VisitForms bp root visit) {n : NodeId}
    (hreach : bp.graph.Reaches root n) (hn : n < bp.graph.size)
    (h : Formed bp root a) :
    Forms bp root (bp.plainNode visit n) a fun _ _ => True := by
  unfold Blueprint.plainNode
  dsimp only
  refine (stateKind_forms hg hacc hspans hreach hn h).bind
    fun kind b hb _ hinvokes => ?_
  refine (addState_forms hb _ kind none).bind fun s c hc _ hmade => ?_
  refine (enter_forms hc n s).bind fun _ d hd hkept _ => ?_
  have hmade := hmade.keep hkept
  split
  · rename_i edge hother
    have htarget :=
      hreach.step
        (Graph.leads_of_edge (Graph.mem_allEdges.mpr (Or.inr hother)))
    refine (hvisit _ d htarget hd).bind fun target e he hkept _ => ?_
    refine (setOtherwise_forms he _ _).bind fun _ f hf hkept' _ => ?_
    exact plainEdges_forms hg hvisit hreach hn hf
      ((hmade.keep hkept).keep hkept') hinvokes
  · exact plainEdges_forms hg hvisit hreach hn hd hmade hinvokes
  · rename_i hnone hnot
    obtain ⟨code, reason, herror⟩ := hacc.otherwise n hreach hnone
    exact (hnot code reason herror).elim

-- ============================================================= visits

/-- Visits of nodes that are reached succeed, whatever their depth. -/
theorem visit_forms (hg : bp.graph.Sound) (hacc : bp.graph.Accepted root)
    (hspans : bp.graph.allocateSpans root = .ok bp.spans) (depth : Nat) :
    VisitForms bp root (bp.visit depth) := by
  induction depth with
  | zero =>
      intro n a _ h
      exact Forms.get_bind (Forms.pure h trivial)
  | succ depth ih =>
      intro n a hreach h
      unfold Blueprint.visit
      refine Forms.get_bind ?_
      cases a.stateOf? n with
      | some s => exact Forms.pure h trivial
      | none =>
          dsimp only
          split
          · rename_i hkind
            exact matchNode_forms hg hacc ih hreach hkind h
          · rename_i hnot
            have hn : n < bp.graph.size := by
              by_contra hge
              exact hnot none
                (by rw [Graph.node_of_ge (Nat.not_lt.mp hge)]; rfl)
            exact plainNode_forms hg hacc hspans ih hreach hn h

/-- The callbacks of spans that can be started have codes. -/
private theorem slotCallbacks_forms (hacc : bp.graph.Accepted root)
    {spans : List SpanId}
    (hstarted : ∀ span ∈ spans,
      ∃ n, bp.graph.Reaches root n ∧ (bp.graph.node n).kind = .spanStart span)
    (h : Formed bp root a) :
    Forms bp root (bp.slotCallbacks spans) a fun _ _ => True := by
  unfold Blueprint.slotCallbacks
  refine Forms.foldlM (fun slot span hspan b hb => ?_) h
  obtain ⟨n, hreach, hkind⟩ := hstarted span hspan
  exact (addCode_forms hb hacc (.span hreach hkind)).bind fun _ c hc _ _ =>
    Forms.pure hc trivial

/-- A graph that breaks no rule is assembled. -/
theorem assemble_forms (hg : bp.graph.Sound) (hacc : bp.graph.Accepted root)
    (hspans : bp.graph.allocateSpans root = .ok bp.spans)
    (h : Formed bp root a) :
    Forms bp root (bp.assemble root) a fun _ _ => True := by
  unfold Blueprint.assemble
  have hslots : Forms bp root (bp.spans.sharing.mapM bp.slotCallbacks) a
      fun _ _ => True := by
    refine (Forms.mapM (R := fun _ _ => True)
      (fun spans hmem b hb => ?_) h).mono
      fun _ _ _ _ => trivial
    exact slotCallbacks_forms hacc
      (fun s hs => hg.started_of_listed hspans hmem hs) hb
  refine hslots.bind fun slots b hb _ _ => ?_
  refine (visit_forms hg hacc hspans _ root b .refl hb).bind
    fun s c hc _ _ => ?_
  exact Forms.pure hc trivial

/-- An empty assembly is well formed. -/
theorem formed_start (bp : Blueprint) (root : NodeId) (symbolPrefix : String) :
    Formed bp root (start symbolPrefix bp.graph.size) where
  used c hc := absurd hc (Nat.not_lt_zero c)
  taken s hs := absurd hs (Nat.not_lt_zero s)
  names s _ hs := absurd hs (Nat.not_lt_zero s)
  keys s hs := absurd hs (Nat.not_lt_zero s)

end Assembly

end Bytewise

/-
When the refusal of a graph is called for.

The search for loops keeps one set of bytes for a node, whichever way they
have come, and asks of each edge by itself whether some of them pass. So
the edges of the cycle it finds may be passed by different bytes, and it
lets a match node go on at its otherwise edge on a byte that the node
peeks at. A parser has one byte, and looks at peeked keys first: `Takes`
is what it does. The two agree on an edge except where a peek shadows it
(`takes_iff`), and so a refusal is called for if and only if one byte
passes all edges of some cycle of live edges, none of them shadowed
(`alarm_real_iff`).
-/
import Mathlib.Tactic.IntervalCases
import Bytewise.Proofs.Graph.LiveCycles
import Bytewise.Proofs.Graph.Progress

namespace Bytewise

namespace Graph

-- =============================================================== walks

/-- The edges lead one after another from `a` to `b`, each from the node that
it stands with. -/
def Walk (g : Graph) : List (NodeId × Edge) → NodeId → NodeId → Prop
  | [], a, b => a = b
  | (x, e) :: hops, a, b =>
    x = a ∧ e ∈ (g.node x).allEdges ∧ Walk g hops e.target b

variable {g : Graph} {root start a b : NodeId} {c : UInt8} {e : Edge}
  {hops : List (NodeId × Edge)}

/-- Some steps along chosen edges are a walk of chosen edges. -/
theorem transGen_iff_walk {chosen : NodeId → Edge → Prop}
    (hchosen : ∀ a e, chosen a e → e ∈ (g.node a).allEdges) :
    Relation.TransGen (fun a b => ∃ e, chosen a e ∧ e.target = b) a b
      ↔ ∃ hops, hops ≠ [] ∧ g.Walk hops a b ∧ ∀ hop ∈ hops,
          chosen hop.1 hop.2 := by
  constructor
  · intro h
    induction h using Relation.TransGen.head_induction_on with
    | @single a hstep =>
        obtain ⟨e, he, htarget⟩ := hstep
        refine ⟨[(a, e)], List.cons_ne_nil _ _, ⟨rfl, hchosen a e he, htarget⟩,
          fun hop hhop => ?_⟩
        rw [List.mem_singleton.mp hhop]
        exact he
    | @head a mid hstep _ ih =>
        obtain ⟨e, he, rfl⟩ := hstep
        obtain ⟨hops, -, hwalk, hall⟩ := ih
        refine ⟨(a, e) :: hops, List.cons_ne_nil _ _,
          ⟨rfl, hchosen a e he, hwalk⟩,
          fun hop hhop => ?_⟩
        rcases List.mem_cons.mp hhop with rfl | hhop
        · exact he
        · exact hall hop hhop
  · rintro ⟨hops, hne, hwalk, hall⟩
    induction hops generalizing a with
    | nil => exact absurd rfl hne
    | cons hop hops ih =>
        obtain ⟨x, e⟩ := hop
        obtain ⟨rfl, -, hwalk⟩ := hwalk
        have hfirst : chosen x e := hall _ List.mem_cons_self
        cases hops with
        | nil => exact .single ⟨e, hfirst, hwalk⟩
        | cons next rest =>
            exact .head ⟨e, hfirst, rfl⟩
                (ih (List.cons_ne_nil _ _) hwalk fun hop hhop =>
              hall hop (List.mem_cons_of_mem _ hhop))

-- ========================================================= taking edges

/-- No match node changes the byte that it compares. -/
def Plain (g : Graph) : Prop :=
  ∀ a t, (g.node a).kind = .dispatch t → t = none ∨ t = some .identity

/-- With `c` as the next byte, the parser goes on from `a` along the edge `e`
and leaves `c` unread. -/
inductive Takes (g : Graph) (c : UInt8) (a : NodeId) (e : Edge) : Prop where
  /-- A match node peeks at the byte, and consumes no key that starts with
  it. -/
  | peek {t : Option Transform} (kind : (g.node a).kind = .dispatch t)
      (mem : e ∈ (g.node a).edges) (stays : e.noAdvance = true)
      (key : e.key = some (.bytes [normalize t c]))
        (free : ¬ g.Consumes (normalize t c) a)
  /-- A match node has no key that starts with the byte. -/
  | pass {t : Option Transform} (kind : (g.node a).kind = .dispatch t)
      (free : ∀ o ∈ (g.node a).edges, o.firstByte? ≠ some (normalize t c))
      (otherwise : (g.node a).otherwise = some e) (stays : e.noAdvance = true)
  /-- A code may return anything. -/
  | call {code : CodeRef} (kind : (g.node a).kind = .invoke code)
      (mem : e ∈ (g.node a).allEdges)
  /-- Other nodes have one way to go on. -/
  | goOn (kind : (g.node a).kind.GoesOn)
      (otherwise : (g.node a).otherwise = some e)
      (stays : e.noAdvance = true)

/-- The parser can go from `a` to `b` with `c` unread. -/
def Goes (g : Graph) (c : UInt8) (a b : NodeId) : Prop :=
  ∃ e, g.Takes c a e ∧ e.target = b

/-- The edge is taken when no key applies, but the node peeks at `c`. -/
def Shadowed (g : Graph) (c : UInt8) (a : NodeId) (e : Edge) : Prop :=
  e.key = none ∧ ∃ o ∈ (g.node a).edges, o.noAdvance = true
    ∧ o.firstByte? = some c

theorem Plain.normalize_eq (h : g.Plain) {t : Option Transform}
    (hkind : (g.node a).kind = .dispatch t) (c : UInt8) :
    normalize t c = c := by
  rcases h a t hkind with rfl | rfl
  · rfl
  · rfl

theorem Takes.mem (h : g.Takes c a e) : e ∈ (g.node a).allEdges := by
  cases h with
  | peek _ mem => exact mem_allEdges.mpr (Or.inl mem)
  | pass _ _ otherwise => exact mem_allEdges.mpr (Or.inr otherwise)
  | call _ mem => exact mem
  | goOn _ otherwise => exact mem_allEdges.mpr (Or.inr otherwise)

/-- The keys that a node consumes, as they are written on its edges. -/
theorem not_consumes_iff : ¬ g.Consumes c a
    ↔ ∀ o ∈ (g.node a).edges, o.noAdvance = false →
      ∀ bs, o.key = some (.bytes bs) →
      bs.head? ≠ some c := by
  unfold Consumes
  constructor
  · intro hnone o ho hadv bs hkey hhead
    exact hnone ⟨o, ho, hadv, Edge.firstByte?_eq_some.mpr ⟨bs, hkey, hhead⟩⟩
  · rintro hfree ⟨o, ho, hadv, hfirst⟩
    obtain ⟨bs, hkey, hhead⟩ := Edge.firstByte?_eq_some.mp hfirst
    exact hfree o ho hadv bs hkey hhead

/-- Where no key is one of bytes, a byte passes every edge that stays. -/
private theorem letsPass_of_unkeyed (hmem : e ∈ (g.node a).allEdges)
    (hstays : e.noAdvance = true)
    (hkeys : ∀ o ∈ (g.node a).allEdges, o.firstByte? = none) (hg : g.Sound) :
    (g.node a).LetsPass e c ∧ ¬ g.Shadowed c a e := by
  have hedges : ∀ o ∈ (g.node a).edges, o.firstByte? = none := fun o ho =>
    hkeys o (mem_allEdges.mpr (Or.inl ho))
  refine ⟨⟨hmem, hstays, not_consumes_iff.mp ?_, fun bs hkey => ?_⟩, ?_⟩
  · rintro ⟨o, ho, -, hfirst⟩
    rw [hedges o ho] at hfirst
    cases hfirst
  · obtain ⟨x, rest, rfl⟩ :=
      List.exists_cons_of_ne_nil (hg.key_ne_nil hmem hkey)
    have hfirst := Edge.firstByte?_eq_some.mpr ⟨_, hkey, rfl⟩
    rw [hkeys e hmem] at hfirst
    cases hfirst
  · rintro ⟨-, o, ho, -, hfirst⟩
    rw [hedges o ho] at hfirst
    cases hfirst

/-- Only match nodes have keys of bytes. -/
theorem Sound.firstByte?_eq_none (hg : g.Sound)
    (hkind : ∀ t, (g.node a).kind ≠ .dispatch t)
    (he : e ∈ (g.node a).allEdges) : e.firstByte? = none := by
  have hnode := Node.lawful_of_sound (hg.nodes a (lt_of_mem_allEdges he))
  rcases mem_allEdges.mp he with hmem | hother
  · rcases hnode.keyed (List.ne_nil_of_mem hmem) with ⟨t, hdispatch⟩
      | ⟨ref, hinvoke⟩
    · exact absurd hdispatch (hkind t)
    · obtain ⟨⟨code, hkey⟩, -⟩ := hnode.returns ref hinvoke e hmem
      rw [Edge.firstByte?, hkey]
      rfl
  · exact hg.otherwise_key hother

/-- The parser takes an edge if the byte passes it and no peek shadows it. -/
theorem takes_iff (hg : g.Sound) (hplain : g.Plain) :
    g.Takes c a e ↔ (g.node a).LetsPass e c ∧ ¬ g.Shadowed c a e := by
  constructor
  · intro h
    have hnode := Node.lawful_of_sound (hg.nodes a (lt_of_mem_allEdges h.mem))
    cases h with
    | @peek t kind mem stays key free =>
        rw [hplain.normalize_eq kind] at key free
        refine ⟨⟨mem_allEdges.mpr (Or.inl mem), stays,
          not_consumes_iff.mp free,
          fun bs hkey => ?_⟩, fun hshadow => ?_⟩
        · cases key.symm.trans hkey
          rfl
        · cases key.symm.trans hshadow.1
    | @pass t kind free otherwise stays =>
        rw [hplain.normalize_eq kind] at free
        refine ⟨⟨mem_allEdges.mpr (Or.inr otherwise), stays,
          not_consumes_iff.mp ?_,
          fun bs hkey => ?_⟩, ?_⟩
        · rintro ⟨o, ho, -, hfirst⟩
          exact free o ho hfirst
        · cases (hnode.otherwise e otherwise).1.symm.trans hkey
        · rintro ⟨-, o, ho, -, hfirst⟩
          exact free o ho hfirst
    | @call code kind mem =>
        have hkind : ∀ t, (g.node a).kind ≠ .dispatch t :=
          fun t hdispatch => by
          cases kind.symm.trans hdispatch
        refine letsPass_of_unkeyed mem ?_
          (fun o ho => hg.firstByte?_eq_none hkind ho) hg
        rcases mem_allEdges.mp mem with mem | otherwise
        · exact (hnode.returns code kind e mem).2.1
        · exact hnode.stays e otherwise (Or.inr (Or.inl ⟨code, kind⟩))
    | goOn kind otherwise stays =>
        have hkind : ∀ t, (g.node a).kind ≠ .dispatch t :=
          fun t hdispatch => by
          rw [hdispatch] at kind
          exact kind
        exact letsPass_of_unkeyed (mem_allEdges.mpr (Or.inr otherwise)) stays
          (fun o ho => hg.firstByte?_eq_none hkind ho) hg
  · rintro ⟨⟨mem, stays, unconsumed, key⟩, hshadow⟩
    have hnode := Node.lawful_of_sound (hg.nodes a (lt_of_mem_allEdges mem))
    cases hkind : (g.node a).kind with
    | dispatch t =>
        have hsame := hplain.normalize_eq hkind c
        rcases mem_allEdges.mp mem with mem | otherwise
        · obtain ⟨bs, hkey, -, hpeek⟩ := hnode.bytes t hkind e mem
          obtain ⟨x, rfl⟩ := List.length_eq_one_iff.mp (hpeek stays).1
          obtain rfl : x = c := Option.some.inj (key _ hkey)
          exact .peek hkind mem stays (hsame.symm ▸ hkey)
            (hsame.symm ▸ not_consumes_iff.mpr
            unconsumed)
        · refine .pass hkind (fun o ho hfirst => ?_) otherwise stays
          rw [hsame] at hfirst
          -- a key that starts with the byte is consumed or peeked at
          cases hadv : o.noAdvance with
          | false =>
              exact not_consumes_iff.mpr unconsumed ⟨o, ho, hadv, hfirst⟩
          | true =>
              exact hshadow ⟨(hnode.otherwise e otherwise).1, o, ho,
                hadv, hfirst⟩
    | invoke code => exact .call hkind mem
    | error code reason =>
        rw [hnode.final code reason hkind] at mem
        cases mem
    | _ =>
        refine .goOn (by rw [hkind]; trivial)
          ((mem_allEdges.mp mem).resolve_left fun hedge => ?_)
          stays
        rcases hnode.keyed (List.ne_nil_of_mem hedge) with ⟨t, hother⟩
          | ⟨ref, hother⟩
        · cases hkind.symm.trans hother
        · cases hkind.symm.trans hother

-- ============================================================== alarms

/-- Live edges that lead from `a` back to `a`. -/
structure LiveRound (g : Graph) (start a : NodeId)
    (hops : List (NodeId × Edge)) : Prop where
  some : hops ≠ []
  walk : g.Walk hops a a
  live : ∀ hop ∈ hops, g.LiveEdge start hop.1 hop.2

theorem LiveEdge.mem (h : g.LiveEdge start a e) : e ∈ (g.node a).allEdges := by
  obtain ⟨_, -, hlets⟩ := h
  exact hlets.mem

/-- A byte that arrives at the first node of a walk and passes its edges keeps
them alive. -/
theorem liveEdge_of_walk (hwalk : g.Walk hops a b)
    (hbrings : g.Brings start c a)
    (hpass : ∀ hop ∈ hops, (g.node hop.1).LetsPass hop.2 c) :
    ∀ hop ∈ hops, g.LiveEdge start hop.1 hop.2 := by
  induction hops generalizing a with
  | nil => exact fun hop hhop => absurd hhop List.not_mem_nil
  | cons first rest ih =>
      obtain ⟨x, e⟩ := first
      obtain ⟨rfl, -, hwalk⟩ := hwalk
      have hfirst : (g.node x).LetsPass e c := hpass _ List.mem_cons_self
      intro hop hhop
      rcases List.mem_cons.mp hhop with rfl | hhop
      · exact ⟨c, hbrings, hfirst⟩
      · exact ih hwalk (hbrings.tail ⟨e, hfirst, rfl⟩)
          (fun hop hhop => hpass hop (List.mem_cons_of_mem _ hhop)) hop hhop

/-- The start of a live round leads to the round. -/
theorem LiveRound.reaches (h : g.LiveRound start a hops) :
    g.Reaches start a := by
  obtain ⟨⟨x, e⟩, rest, rfl⟩ := List.exists_cons_of_ne_nil h.some
  obtain ⟨rfl, -⟩ := h.walk
  obtain ⟨c, hbrings, -⟩ := h.live _ List.mem_cons_self
  exact hbrings.reaches

/-- A refused graph has a live round. -/
theorem liveRound_of_alarm (hg : g.Built)
    (h : ∃ cause, g.checkLoops root = .error cause) :
    ∃ start a hops, g.Reaches root start ∧ g.LiveRound start a hops := by
  obtain ⟨cause, hcause⟩ := h
  have hfails : FailsWith (fun _ => ∃ start a hops, g.Reaches root start
      ∧ g.LiveRound start a hops) (g.checkLoops root) := by
    refine FailsWith.forM fun start hstart cause hcause => ?_
    obtain ⟨ids, back, hlasso, -⟩ :=
      checkLoopsFrom_fails hg.sound start cause hcause
    obtain ⟨hops, hsome, hwalk, hlive⟩ :=
      (transGen_iff_walk fun _ _ => LiveEdge.mem).mp hlasso.round
    exact ⟨start, back, hops, hg.sound.mem_reachable.mp hstart, hsome,
      hwalk, hlive⟩
  exact hfails cause hcause

/-- A refused graph has a round of live edges, each passed by a byte of its
own. The parser can go round with a byte unread if and only if one byte passes
all edges of such a round, none of them shadowed. -/
theorem alarm_real_iff (hg : g.Built) (hplain : g.Plain)
    (halarm : ∃ cause, g.checkLoops root = .error cause) :
    (∃ start a hops, g.Reaches root start ∧ g.LiveRound start a hops)
    ∧ ((∃ u c, g.Reaches root u ∧ Relation.TransGen (g.Goes c) u u)
      ↔ ∃ start a hops c, g.Reaches root start ∧ g.LiveRound start a hops
        ∧ ∀ hop ∈ hops, (g.node hop.1).LetsPass hop.2 c
            ∧ ¬ g.Shadowed c hop.1 hop.2) := by
  refine ⟨liveRound_of_alarm hg halarm, ?_, ?_⟩
  · rintro ⟨u, c, hu, hround⟩
    obtain ⟨hops, hsome, hwalk, htakes⟩ :=
      (transGen_iff_walk fun _ _ => Takes.mem).mp hround
    have hpass := fun hop hhop => (takes_iff hg.sound hplain).mp
      (htakes hop hhop)
    exact ⟨u, u, hops, c, hu,
      ⟨hsome, hwalk, liveEdge_of_walk hwalk .refl fun hop hhop =>
        (hpass hop hhop).1⟩, hpass⟩
  · rintro ⟨start, a, hops, c, hstart, hround, hpass⟩
    refine ⟨a, c, hstart.trans hround.reaches, ?_⟩
    exact (transGen_iff_walk fun _ _ => Takes.mem).mpr
      ⟨hops, hround.some, hround.walk,
      fun hop hhop => (takes_iff hg.sound hplain).mpr (hpass hop hhop)⟩

/-- Where nothing is peeked at and some byte starts no key, a refusal is called
for. -/
theorem alarm_real_of_neutral (hg : g.Built) (hplain : g.Plain)
    (halarm : ∃ cause, g.checkLoops root = .error cause)
    (hneutral : ∀ a, g.Reaches root a → ∀ o ∈ (g.node a).edges, o.firstByte?
      ≠ some c)
    (hpeek : ∀ a, g.Reaches root a →
      ∀ o ∈ (g.node a).edges, o.firstByte?.isSome = true →
      o.noAdvance = false) :
    ∃ u, g.Reaches root u ∧ Relation.TransGen (g.Goes c) u u := by
  obtain ⟨start, a, hops, hstart, hround⟩ := liveRound_of_alarm hg halarm
  refine ⟨a, hstart.trans hround.reaches, ?_⟩
  refine (transGen_iff_walk fun _ _ => Takes.mem).mpr
    ⟨hops, hround.some, hround.walk,
    fun hop hhop => (takes_iff hg.sound hplain).mpr ?_⟩
  obtain ⟨x, hbrings, hlets⟩ := hround.live hop hhop
  have hreach : g.Reaches root hop.1 := hstart.trans hbrings.reaches
  refine ⟨⟨hlets.mem, hlets.stays, not_consumes_iff.mp ?_, fun bs hkey => ?_⟩,
    ?_⟩
  · rintro ⟨o, ho, -, hfirst⟩
    exact hneutral _ hreach o ho hfirst
  · -- an edge that stays has no key of bytes
    exfalso
    have hfirst := Edge.firstByte?_eq_some.mpr ⟨bs, hkey, hlets.key bs hkey⟩
    rcases mem_allEdges.mp hlets.mem with hmem | hother
    · have hadv := hpeek _ hreach _ hmem (by rw [hfirst]; rfl)
      rw [hlets.stays] at hadv
      cases hadv
    · rw [hg.sound.otherwise_key hother] at hfirst
      cases hfirst
  · rintro ⟨-, o, ho, -, hfirst⟩
    exact hneutral _ hreach o ho hfirst

-- ========================================================= false alarms

/-- A call leads to either of two nodes, which peek at different bytes to get
to each other. -/
def parted : Graph :=
  Build.replay [.externalCode "nop" .plain, .invoke 0, .node "u",
    .node "v", .on 0 0 1,
    .otherwise 0 2, .peek 1 0x61 2, .skipTo 1 1, .peek 2 0x62 1,
      .skipTo 2 2] {}

theorem built_parted : parted.Built :=
  Built.new.replay (by decide +kernel)

theorem plain_parted : parted.Plain := by
  intro a t hkind
  have hkinds : ∀ a < 3,
      (parted.node a).kind = .invoke 0
          ∨ (parted.node a).kind = .dispatch none := by
    decide +kernel
  by_cases ha : a < 3
  · rcases hkinds a ha with hnode | hnode
    · cases hnode.symm.trans hkind
    · exact Or.inl (NodeKind.dispatch.inj (hnode.symm.trans hkind)).symm
  · have hge : parted.size ≤ a := Nat.not_lt.mp ha
    rw [node_of_ge hge] at hkind
    exact Or.inl (NodeKind.dispatch.inj hkind).symm

/-- The places of the nodes on the way of a byte. On `a` the first of the two
that peek comes before the second, on other bytes behind it. -/
def partedRank (c : UInt8) : NodeId → Nat
  | 0 => 2
  | 1 => if c = 0x61 then 1 else 0
  | _ => if c = 0x61 then 0 else 1

/-- Whatever the byte, the parser goes to nodes of lower rank. -/
theorem partedRank_lt (h : parted.Goes c a b) :
    partedRank c b < partedRank c a := by
  obtain ⟨e, htakes, rfl⟩ := h
  obtain ⟨⟨hmem, hstays, -, hkey⟩, -⟩ :=
    (takes_iff built_parted.sound plain_parted).mp htakes
  have ha : a < 3 := lt_of_mem_allEdges hmem
  interval_cases a
  · have hedges : (parted.node 0).allEdges
        = [⟨some (.code 0), 1, true, none⟩, ⟨none, 2, true, none⟩] := by
          decide +kernel
    rw [hedges] at hmem
    rcases List.mem_pair.mp hmem with rfl | rfl
    · show (if c = 0x61 then 1 else 0) < 2
      split <;> decide
    · show (if c = 0x61 then 0 else 1) < 2
      split <;> decide
  · have hedges : (parted.node 1).allEdges
        = [⟨some (.bytes [0x61]), 2, true, none⟩, ⟨none, 1, false, none⟩] := by
          decide +kernel
    rw [hedges] at hmem
    rcases List.mem_pair.mp hmem with rfl | rfl
    · obtain rfl : 0x61 = c := Option.some.inj (hkey _ rfl)
      decide
    · cases hstays
  · have hedges : (parted.node 2).allEdges
        = [⟨some (.bytes [0x62]), 1, true, none⟩, ⟨none, 2, false, none⟩] := by
          decide +kernel
    rw [hedges] at hmem
    rcases List.mem_pair.mp hmem with rfl | rfl
    · obtain rfl : 0x62 = c := Option.some.inj (hkey _ rfl)
      decide
    · cases hstays

/-- So it does not come back. -/
theorem not_round_parted : ¬ Relation.TransGen (parted.Goes c) a a := by
  have hlt : ∀ b, Relation.TransGen (parted.Goes c) a b →
      partedRank c b < partedRank c a := by
    intro b h
    induction h with
    | single hgoes => exact partedRank_lt hgoes
    | tail _ hgoes ih => exact Nat.lt_trans (partedRank_lt hgoes) ih
  exact fun h => Nat.lt_irrefl _ (hlt a h)

theorem alarm_parted : ∃ cause, parted.checkLoops 0 = .error cause :=
  ⟨.loop "u" ["u", "v"], by decide +kernel⟩

/-- A graph is refused whose parser does not come back to any node on any
byte. -/
theorem refused_for_nothing : ∃ g : Graph, ∃ root, g.Built ∧ g.Plain
    ∧ (∃ cause, g.checkLoops root = .error cause)
    ∧ ¬ ∃ u c, g.Reaches root u ∧ Relation.TransGen (g.Goes c) u u :=
  ⟨parted, 0, built_parted, plain_parted, alarm_parted, fun ⟨_, _, _, h⟩ =>
    not_round_parted h⟩

/-- Its live edges lead around, and no byte passes them all. -/
theorem alarm_real_parted : (∃ cause, parted.checkLoops 0 = .error cause)
    ∧ (∃ start a hops, parted.Reaches 0 start ∧ parted.LiveRound start a hops)
    ∧ ¬ ∃ start a hops c, parted.Reaches 0 start
      ∧ parted.LiveRound start a hops
      ∧ ∀ hop ∈ hops, (parted.node hop.1).LetsPass hop.2 c
          ∧ ¬ parted.Shadowed c hop.1 hop.2 := by
  obtain ⟨hround, hreal⟩ :=
    alarm_real_iff built_parted plain_parted alarm_parted
  refine ⟨alarm_parted, hround, fun h => ?_⟩
  obtain ⟨_, _, _, hback⟩ := hreal.mpr h
  exact not_round_parted hback

end Graph

end Bytewise

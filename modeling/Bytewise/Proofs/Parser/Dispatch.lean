/-
The states of a match node scan its keys.

A part of a trie reads what the scan reads next, and hands over to the part
below it or to where the scan comes out; so, part by part, the states of a
match node do what one flat scan of its keys says (`Image.scans`). Parts
that compare a literal read several bytes at once; parts that branch read
one, and what a table puts together the trie had taken apart.
-/
import Mathlib
import Bytewise.Proofs.Execution.Literals
import Bytewise.Proofs.Parser.Edges

namespace Bytewise

namespace Parser

variable {parser : Parser} {host : Host} {data : List UInt8} {c : Config}

-- =============================================================== scans

/-- What the states of a match node are, and where edges to nodes lead. -/
structure Surroundings where
  node : Node
  own : StateId → Prop
  lands : NodeId → StateId → Prop

/-- The parser reads keys in one of the states. -/
def Reads (parser : Parser) (own : StateId → Prop) (c : Config) : Prop :=
  own c.state ∧ (parser.machine.state c.state).kind.Dispatches

/-- A step of a state that reads keys. -/
def ReadStep (parser : Parser) (own : StateId → Prop) (host : Host)
    (data : List UInt8) (c c' : Config) : Prop :=
  parser.Reads own c ∧ parser.step host data c = .next c'

/-- From `c` on, the parser reads keys until it comes to where a scan that
began at `start` does: it waits for more input, or it goes on where the key
leads that is taken, or where the node otherwise does. Nothing else changes on
the way. -/
def Scans (parser : Parser) (around : Surroundings) (host : Host)
    (data : List UInt8) (start : Nat) (c : Config) : Scan → Prop
  | .more =>
    ∃ c' s index,
      Relation.ReflTransGen (parser.ReadStep around.own host data) c c'
      ∧ parser.Reads around.own c'
      ∧ parser.step host data c'
        = .suspend { c with state := s, position := data.length, index }
  | .hit leaf read => ∃ s, around.lands leaf.target s
      ∧ Relation.TransGen (parser.ReadStep around.own host data) c
          { c with state := s, position := start + read,
                   matched := leaf.value <|> c.matched }
  | .miss read =>
    ∃ edge s, around.node.otherwise = some edge ∧ around.lands edge.target s
      ∧ Relation.TransGen (parser.ReadStep around.own host data) c
          { c with state := s,
                   position := start + read + if edge.noAdvance then 0 else 1 }

variable {around : Surroundings} {start : Nat}

/-- What the parser scans after a step, it scans before. -/
theorem Scans.step {s : StateId} {p : Nat} {scan : Scan}
    (hstep : parser.ReadStep around.own host data c
      { c with state := s, position := p })
    (h : parser.Scans around host data start
      { c with state := s, position := p } scan) :
    parser.Scans around host data start c scan := by
  cases scan with
  | more =>
      obtain ⟨c', s', index, hsteps, hkind, hsuspend⟩ := h
      exact ⟨c', s', index, hsteps.head hstep, hkind, hsuspend⟩
  | hit leaf read =>
      obtain ⟨s', hlands, hsteps⟩ := h
      exact ⟨s', hlands, hsteps.head hstep⟩
  | miss read =>
      obtain ⟨edge, s', hother, hlands, hsteps⟩ := h
      exact ⟨edge, s', hother, hlands, hsteps.head hstep⟩

-- =============================================================== steps

/-- The step of a state that branches. -/
theorem step_branch (host : Host) (data : List UInt8) {state : Machine.State}
    (hstate : parser.machine.state c.state = state)
    (hkind : state.kind = .single ∨ state.kind = .table)
    {otherwise : Machine.Edge} (hother : state.otherwise = some otherwise) :
    parser.step host data c = branchBody data c state.effectiveTransform
        state.edges otherwise := by
  subst hstate
  rw [step_of_some hother]
  unfold body
  rcases hkind with hkind | hkind
  · rw [hkind]
  · rw [hkind]

/-- The step of a state that compares a literal. -/
theorem step_literal (host : Host) (data : List UInt8) {state : Machine.State}
    (hstate : parser.machine.state c.state = state)
    (hkind : state.kind = .sequence) {otherwise : Machine.Edge}
    (hother : state.otherwise = some otherwise) :
    parser.step host data c
      = literalBody data c state.effectiveTransform state.edges otherwise := by
  subst hstate
  rw [step_of_some hother]
  unfold body
  rw [hkind]

end Parser

-- =============================================================== parts

namespace Layout

variable {l : Layout} {node : Node} {t : Trie}
  {otherwise : Option Machine.Edge}

/-- What lies inside a trie has a state of its own. -/
theorem Below.role {n : NodeId} {s : StateId} (h : l.Below n t s)
    (hdeep : t.Deep) :
    l.roles[s]? = some (.part n t) := by
  cases t with
  | leaf leaf => exact hdeep.elim
  | sequence literal child => exact h
  | single bs fallback => exact h

/-- Every part of a trie goes on somewhere if no key does. -/
theorem Closed.goes_on (h : l.Closed node t otherwise) :
    ∃ edge, otherwise = some edge := by
  obtain ⟨_, edge, _, hother, _⟩ := closed_iff.mp h
  exact ⟨edge, hother⟩

end Layout

namespace Parser

open TrieEntry

variable {parser : Parser} {bp : Blueprint} {root m : NodeId}
  {entry : NodeId → Option StateId} {l : Layout} {host : Host}
  {data : List UInt8} {c : Config} {start : Nat} {tr : Transform}
  {entries : List TrieEntry} {word : List UInt8}

/-- Keys that peek have one byte. -/
def PeeksAreShort (entries : List TrieEntry) : Prop :=
  ∀ e ∈ entries, e.noAdvance = true → e.key.length = 1

/-- Below the first byte what goes on does not peek. -/
theorem PeeksAreShort.consumes (h : PeeksAreShort entries) {b : UInt8}
    {e : TrieEntry} (he : e ∈ rest (word ++ [b]) entries) (hkey : e.key ≠ []) :
    e.noAdvance = false := by
  obtain ⟨o, ho, hbegins, rfl⟩ := mem_rest.mp he
  by_contra hpeek
  have hlen := h o ho (Bool.not_eq_false _ ▸ hpeek)
  refine hkey ((dropKey_nil_iff hbegins).mpr (hbegins.eq_of_length ?_).symm)
  have hle := hbegins.length_le
  rw [List.length_append, List.length_singleton] at hle ⊢
  omega

/-- What surrounds the states of the match node `m`: they stand for no other
node. -/
def surroundings (g : Graph) (entry : NodeId → Option StateId)
    (lands : NodeId → StateId → Prop) (m : NodeId) : Surroundings where
  node := g.node m
  own s := ∀ n, entry n = some s → n = m
  lands := lands

/-- A state that is entered with a word read scans on from there. -/
def ScansFrom (parser : Parser) (around : Surroundings) (host : Host)
    (data : List UInt8) (tr : Transform) (entries : List TrieEntry)
    (word : List UInt8) (s : StateId) : Prop :=
  ∀ (start : Nat) (c : Config), c.state = s → c.index = 0 →
    c.position = start + word.length →
    c.position ≤ data.length →
      parser.Scans around host data start c
        (scan tr entries word (data.drop c.position))

/-- An edge that is taken on the next byte leads to where the scan goes on, or
comes out. -/
private theorem scans_taken (hpeeks : PeeksAreShort entries) {b : UInt8}
    {more : List UInt8} {child : Trie} {edge : Machine.Edge} {p : Nat}
    (hcovers : Trie.Covers child (rest (word ++ [tr.apply b]) entries))
    (hbelow : l.Below m child edge.target)
    (hvalue : edge.value = Blueprint.leafValue child)
    (halike : ∀ e ∈ rest (word ++ [tr.apply b]) entries, e.noAdvance
      = edge.noAdvance)
    (hindex : c.index = 0) (hp : p = start + word.length)
    (hdrop : data.drop p = b :: more)
    (hstep : parser.ReadStep (surroundings bp.graph entry l.lands m).own host
      data c (({ c with position := p } : Config).follow edge edge.value))
    (hchild : child.Deep →
      parser.ScansFrom (surroundings bp.graph entry l.lands m) host data tr
        entries (word ++ [tr.apply b]) edge.target) :
    parser.Scans (surroundings bp.graph entry l.lands m) host data start c
      (scan tr entries word (b :: more)) := by
  by_cases hdeep : child.Deep
  · -- some key goes on: the byte is read, and the part below reads on
    obtain ⟨e, he, hkey⟩ := hcovers.goes_on hdeep
    have hreads : edge.noAdvance = false :=
      (halike e he).symm.trans (hpeeks.consumes he hkey)
    have hnone : edge.value = none := by
      rw [hvalue]
      cases child with
      | leaf leaf => exact hdeep.elim
      | sequence _ _ => rfl
      | single _ _ => rfl
    have hlt : p < data.length := by
      by_contra hge
      rw [List.drop_eq_nil_of_le (Nat.not_lt.mp hge)] at hdrop
      cases hdrop
    have hmore : data.drop (p + 1) = more := by
      rw [← List.tail_drop, hdrop]
      rfl
    have hnext : ({ c with position := p } : Config).follow edge edge.value
        = { c with state := edge.target, position := p + 1 } := by
      unfold Config.follow
      rw [hnone, hreads]
      rfl
    rw [hnext] at hstep
    rw [scan_on ⟨e, he, hkey⟩, ← hmore]
    refine Scans.step hstep (hchild hdeep start _ rfl hindex ?_ hlt)
    rw [hp, List.length_append, Nat.add_assoc]
    rfl
  · -- a key has been read to its end
    generalize hleft : rest (word ++ [tr.apply b]) entries
      = left at hcovers halike
    cases hcovers with
    | leaf ended =>
        rename_i e
        rw [scan_ended hleft ended]
        refine ⟨edge.target, hbelow, .single ?_⟩
        have hnext : ({ c with position := p } : Config).follow edge edge.value
            = { c with
                state := edge.target
                position := start + if e.noAdvance then
                  word.length else word.length + 1
                matched := e.leaf.value <|> c.matched } := by
          unfold Config.follow
          rw [hvalue, halike e (List.mem_singleton.mpr rfl), hp]
          dsimp only
          congr 1
          split <;> rfl
        rw [hnext] at hstep
        exact hstep
    | sequence _ _ _ _ _ => exact absurd trivial hdeep
    | single _ _ _ _ _ _ => exact absurd trivial hdeep

/-- Where no key is read the otherwise edge of the node is taken. -/
private theorem scans_otherwise {edge : Edge} {edge' : Machine.Edge}
    {p read : Nat} (hnode : (bp.graph.node m).otherwise = some edge)
    (hedge : l.IsOtherwise edge edge') (hp : p = start + read)
    (hstep : parser.ReadStep (surroundings bp.graph entry l.lands m).own host
      data c (({ c with position := p } : Config).follow edge' edge'.value)) :
    parser.Scans (surroundings bp.graph entry l.lands m) host data start c
        (.miss read) := by
  obtain ⟨hstays, hvalue, hlands⟩ := hedge
  have hnext : ({ c with position := p } : Config).follow edge' edge'.value
      = { c with
          state := edge'.target
          position := start + read + if edge.noAdvance then 0 else 1 } := by
    unfold Config.follow
    rw [hstays, hvalue, ← hp]
    dsimp only
    congr 1
    split <;> rfl
  rw [hnext] at hstep
  exact ⟨edge, edge'.target, hnode, hlands, .single hstep⟩

/-- Where no key goes on with the byte, a part that branches goes on by the key
that ends there, or as its node does. -/
private theorem scans_off {bs : List (UInt8 × Bool × Trie)}
    {edge : Machine.Edge} {b : UInt8} {more : List UInt8}
    (hclosed : l.Closed (bp.graph.node m)
      (.single bs
        (((rest word entries).find? (·.key.isEmpty)).map TrieEntry.leaf))
        (some edge))
    (hoff : rest (word ++ [tr.apply b]) entries = [])
    (hp : c.position = start + word.length)
    (hstep : parser.ReadStep (surroundings bp.graph entry l.lands m).own host
      data c (c.follow edge edge.value)) :
    parser.Scans (surroundings bp.graph entry l.lands m) host data start c
      (scan tr entries word (b :: more)) := by
  rw [scan_off hoff]
  cases hfound : (rest word entries).find? (·.key.isEmpty) with
  | some e =>
      rw [hfound] at hclosed
      obtain ⟨edge', hedge, hstays, hvalue, hlands⟩ := hclosed
      obtain rfl := Option.some.inj hedge
      have hnext : c.follow edge edge.value = { c with
          state := edge.target
          position := start + word.length
          matched := e.leaf.value <|> c.matched } := by
        unfold Config.follow
        rw [hstays, hvalue, ← hp]
        rfl
      rw [hnext] at hstep
      exact ⟨edge.target, hlands, .single hstep⟩
  | none =>
      rw [hfound] at hclosed
      obtain ⟨other, edge', hnode, hedge, hedges⟩ := hclosed
      obtain rfl := Option.some.inj hedge
      exact scans_otherwise hnode hedges hp hstep

/-- A state that stands for a part of the trie of `m`. -/
structure StandsFor (parser : Parser) (l : Layout) (bp : Blueprint)
    (entry : NodeId → Option StateId) (m : NodeId) (tr : Transform) (t : Trie)
    (s : StateId) :
    Prop where
  own : ∀ n, entry n = some s → n = m
  transform : (parser.machine.state s).effectiveTransform = tr
  keyed : l.Keyed m t (parser.machine.state s)
  closed : l.Closed (bp.graph.node m) t (parser.machine.state s).otherwise

/-- A part that branches scans. -/
private theorem scans_single {bs : List (UInt8 × Bool × Trie)}
    {fallback : Option TrieLeaf} {s : StateId}
    (h : parser.StandsFor l bp entry m tr (.single bs fallback) s)
    (hpeeks : PeeksAreShort entries)
    (hcovers : Trie.Covers (.single bs fallback) (rest word entries))
    (hbelow : ∀ x ∈ bs, ∀ s', l.Below m x.2.2 s' → x.2.2.Deep →
      parser.ScansFrom (surroundings bp.graph entry l.lands m) host
        data tr entries
        (word ++ [x.1]) s') :
    parser.ScansFrom (surroundings bp.graph entry l.lands m) host data tr
        entries word s := by
  intro start c hc hindex hp hle
  obtain ⟨hkind, hbranching⟩ := h.keyed
  have hdispatches := h.keyed.dispatches
  obtain ⟨otherwise, hother⟩ := h.closed.goes_on
  have hstate : parser.machine.state c.state = parser.machine.state s := by
    rw [hc]
  have hstep := step_branch host data hstate hkind hother
  have hhere : parser.Reads (surroundings bp.graph entry l.lands m).own c :=
    ⟨hc ▸ h.own, hstate ▸ hdispatches⟩
  unfold branchBody at hstep
  rw [h.transform] at hstep
  cases hcovers with
  | single _ bytes alike below _ ended =>
      cases hdrop : data.drop c.position with
      | nil =>
          rw [hdrop] at hstep
          have hend : c.position = data.length := by
            have hge := List.drop_eq_nil_iff.mp hdrop
            omega
          refine ⟨c, c.state, c.index, .refl, hhere, ?_⟩
          rw [← hend]
          exact hstep
      | cons b more =>
          rw [hdrop] at hstep
          dsimp only at hstep
          cases hfind : (parser.machine.state s).edges.find?
              (·.takes (tr.apply b)) with
          | some edge =>
              rw [hfind] at hstep
              have htakes : edge.takes (tr.apply b) = true :=
                List.find?_some
                  (p := fun e : Machine.Edge => e.takes (tr.apply b)) hfind
              obtain ⟨x, hx, hbyte, hstays, hvalue, hx'⟩ :=
                hbranching.branch edge (List.mem_of_find?_eq_some hfind) _
                  htakes
              have hcovers' := below x hx
              have halike := alike x hx
              have hdeeper := hbelow x hx edge.target hx'
              rw [hbyte] at hcovers' halike hdeeper
              rw [← rest_append] at hcovers' halike
              exact scans_taken hpeeks hcovers' hx' hvalue
                (fun e he => (halike e he).trans hstays.symm) hindex hp hdrop
                ⟨hhere, hstep⟩ hdeeper
          | none =>
              rw [hfind] at hstep
              have hoff : rest (word ++ [tr.apply b]) entries = [] := by
                rw [rest_append]
                by_contra hne
                obtain ⟨x, hx, hbyte⟩ := (bytes _).mp hne
                obtain ⟨edge, hedge, htakes⟩ := hbranching.complete x hx
                rw [hbyte] at htakes
                exact List.find?_eq_none.mp hfind edge hedge htakes
              have hclosed := h.closed
              rw [ended, hother] at hclosed
              exact scans_off hclosed hoff hp ⟨hhere, hstep⟩

/-- A part that compares a literal scans. -/
private theorem scans_sequence {literal : List UInt8} {child : Trie}
    {s : StateId}
    (h : parser.StandsFor l bp entry m tr (.sequence literal child) s)
    (hpeeks : PeeksAreShort entries)
    (hcovers : Trie.Covers (.sequence literal child) (rest word entries))
    (hbelow : ∀ s', l.Below m child s' → child.Deep →
      parser.ScansFrom (surroundings bp.graph entry l.lands m) host
        data tr entries
        (word ++ literal) s') :
    parser.ScansFrom (surroundings bp.graph entry l.lands m) host data tr
        entries word s := by
  intro start c hc hindex hp hle
  obtain ⟨hkind, edge, hedges, hkey, hreads, hvalue, hchild⟩ := h.keyed
  have hdispatches := h.keyed.dispatches
  obtain ⟨otherwise, hother⟩ := h.closed.goes_on
  have hstate : parser.machine.state c.state = parser.machine.state s := by
    rw [hc]
  have hhere : parser.Reads (surroundings bp.graph entry l.lands m).own c :=
    ⟨hc ▸ h.own, hstate ▸ hdispatches⟩
  have hstep := step_literal host data hstate hkind hother
  rw [h.transform, hedges, literalBody_eq hkey, hindex] at hstep
  cases hcovers with
  | sequence long left common consumes below =>
      have hgo : AllGoOn entries word literal := ⟨left, common⟩
      have hscan := Machine.matchLiteral_scan tr (data.drop c.position) hgo
        (List.length_pos_iff.mpr long)
      generalize Machine.matchLiteral tr literal (data.drop c.position) 0
        = result at hscan hstep
      obtain ⟨status, read, index⟩ := result
      have hzeroed : index = 0 →
          ({ c with position := c.position + read, index } : Config)
          = { c with position := c.position + read } := by
        intro heq
        obtain rfl := heq
        rw [← hindex]
      cases status with
      | pause =>
          obtain ⟨hread, hscan⟩ := hscan
          rw [List.take_zero, List.append_nil] at hscan
          have hend : c.position + read = data.length := by
            rw [hread, List.length_drop]
            omega
          rw [hscan]
          refine ⟨c, c.state, index, .refl, hhere, ?_⟩
          rw [← hend]
          exact hstep
      | mismatch =>
          obtain ⟨hzero, hscan⟩ := hscan
          rw [List.take_zero, List.append_nil] at hscan
          dsimp only at hstep
          rw [hzeroed hzero] at hstep
          obtain ⟨edge, edge', hnode, hedge, hother'⟩ := h.closed
          obtain rfl := Option.some.inj (hedge.symm.trans hother)
          rw [hscan]
          refine scans_otherwise hnode hother' ?_ ⟨hhere, hstep⟩
          rw [hp]
          omega
      | complete =>
          obtain ⟨hzero, hlen, b, more, hdrop, hlast, hscan⟩ := hscan
          rw [List.take_zero, List.append_nil, Nat.zero_add] at hscan
          rw [Nat.zero_add] at hlast hlen
          dsimp only at hstep
          rw [hzeroed hzero] at hstep
          have hword : word ++ literal.take read ++ [tr.apply b]
              = word ++ literal := by
            rw [List.append_assoc, hlast]
          have hrest : rest (word ++ literal) entries
              = (rest word entries).map (dropKey literal.length) := by
            rw [rest_rest, rest_common common]
          rw [List.drop_drop] at hdrop
          rw [hscan]
          refine scans_taken hpeeks ?_ hchild hvalue ?_ hindex ?_ hdrop
            ⟨hhere, hstep⟩ ?_
          · rw [hword, hrest]
            exact below
          · rw [hword, hrest]
            intro e he
            obtain ⟨o, ho, rfl⟩ := List.mem_map.mp he
            exact (consumes o ho).trans hreads.symm
          · rw [hp, List.length_append, List.length_take]
            omega
          · rw [hword]
            exact hbelow edge.target hchild

/-- The states of the trie of a match node scan, each from what has been read
before it. -/
theorem Image.scans (h : parser.Image bp root entry l) (host : Host)
    (data : List UInt8) (hpeeks : PeeksAreShort entries) {t : Trie}
    {left : List TrieEntry} (hcovers : Trie.Covers t left)
    {transform : Option Transform}
    (hkind : (bp.graph.node m).kind = .dispatch transform) (word : List UInt8)
    (hleft : left = rest word entries) {s : StateId}
    (hs : l.roles[s]? = some (.part m t)) :
    parser.ScansFrom (surroundings bp.graph entry l.lands m) host data
      (transform.getD .identity)
      entries word s := by
  have hstands : ∀ t' s', l.roles[s']? = some (.part m t') →
      parser.StandsFor l bp entry m (transform.getD .identity) t' s' := by
    intro t' s' hs'
    cases h.realizes s' _ hs' with
    | part htransform keyed closed =>
        rw [hkind] at htransform
        refine ⟨fun n hn => ?_, ?_, keyed, closed⟩
        · obtain ⟨role, hrole, henters⟩ := h.entered n s' hn
          obtain rfl := Option.some.inj (hs'.symm.trans hrole)
          cases henters with
          | part => rfl
        unfold Machine.State.effectiveTransform
        rw [← NodeKind.dispatch.inj htransform]
  induction hcovers generalizing word s with
  | leaf ended => exact (hstands _ s hs).keyed.elim
  | @sequence literal child _ long left common consumes below ih =>
      subst hleft
      refine scans_sequence (hstands _ s hs) hpeeks
        (.sequence long left common consumes below) ?_
      intro s' hs' hdeep
      have hrest : (rest word entries).map (dropKey literal.length)
          = rest (word ++ literal) entries := by
        rw [rest_rest, rest_common common]
      exact ih (word ++ literal) hrest (hs'.role hdeep)
  | single some bytes alike below alone ended ih =>
      subst hleft
      refine scans_single (hstands _ s hs) hpeeks
        (.single some bytes alike below alone ended) ?_
      intro x hx s' hs' hdeep
      exact ih x hx (word ++ [x.1]) (rest_append word x.1 entries).symm
        (hs'.role hdeep)

/-- In a sound graph no key that peeks goes on. -/
theorem peeksAreShort_of_sound (hg : bp.graph.Sound) (hm : m < bp.graph.size)
    {transform : Option Transform}
    (hkind : (bp.graph.node m).kind = .dispatch transform) :
    PeeksAreShort ((bp.graph.node m).entries.mergeSort keyLE) := by
  intro e he hpeek
  obtain ⟨edge, hedge, hentry⟩ :=
    mem_entries.mp ((List.mergeSort_perm _ _).mem_iff.mp he)
  obtain ⟨hkey, _, hstays, _⟩ := entry?_eq_some.mp hentry
  have hfits := (hg.nodes m hm).keyed edge hedge
  rw [hkind] at hfits
  obtain ⟨bs, hbs, _, hshort⟩ := hfits
  obtain rfl := EdgeKey.bytes.inj (Option.some.inj (hkey.symm.trans hbs))
  exact (hshort (hstays.trans hpeek)).1

/-- From the entry state of a match node on, the parser scans the keys of the
node. -/
theorem Image.scans_of_entry (himage : parser.Image bp root entry l)
    (hg : bp.graph.Sound) (hm : m < bp.graph.size)
    {transform : Option Transform}
    (hkind : (bp.graph.node m).kind = .dispatch transform)
    (hkeys : (bp.graph.node m).edges ≠ []) {s : StateId}
    (hs : entry m = some s) (host : Host) (behind input : List UInt8)
    (c : Config) :
    parser.Scans (surroundings bp.graph entry l.lands m) host (behind ++ input)
      behind.length
      { c with state := s, position := behind.length, index := 0 }
      (scan (transform.getD .identity) (bp.graph.node m).entries []
          input) := by
  obtain ⟨role, hrole, henters⟩ := himage.entered m s hs
  cases henters with
  | whole hbare => exact absurd (hbare transform hkind) hkeys
  | @part t hbuilds =>
      have hscans := himage.scans host (behind ++ input)
        (peeksAreShort_of_sound hg hm hkind)
        (hbuilds.covers hg hm) hkind [] (rest_nil _).symm hrole behind.length
        { c with state := s, position := behind.length, index := 0 }
          rfl rfl rfl
        (by rw [List.length_append]; exact Nat.le_add_right _ _)
      dsimp only at hscans
      rw [List.drop_left] at hscans
      -- the trie is built of the keys in order, which the scan does not depend
      -- on
      rw [scan_perm (List.mergeSort_perm _ keyLE).symm
        (hg.nodes m hm).entries_distinct]
      exact hscans

-- ============================================================= parsers

/-- The state is that of the node, or of one that it forwards to. -/
def TranslatesTo (g : Graph) (root : NodeId) (symbolPrefix : String)
    (options : Options) (n : NodeId) (s : StateId) : Prop :=
  ∃ k, g.Forwards n k ∧ translation g root symbolPrefix options k = some s

/-- The layout of a parser of a graph lands where the graph translates to. -/
theorem Image.lands_eq {g : Graph} {symbolPrefix : String} {options : Options}
    {spans : SpanAllocation}
    (himage : parser.Image ⟨g, options, spans⟩ root
      (translation g root symbolPrefix options) l) :
    l.lands = TranslatesTo g root symbolPrefix options := by
  funext n s
  exact propext (himage.lands n s)

/-- The states of a match node do what the scan of its keys says. Entered with
some bytes behind it and some input before it, the parser waits for more of it,
or goes on where the key that is read leads, or where the node otherwise
does. -/
theorem dispatch_scans {g : Graph} {symbolPrefix : String} {options : Options}
    (hg : g.Built) (hok : ofGraph g root symbolPrefix options = .ok parser)
    (hm : g.Reaches root m) {transform : Option Transform}
    (hkind : (g.node m).kind = .dispatch transform)
    (hkeys : (g.node m).edges ≠ []) :
    ∃ s, translation g root symbolPrefix options m = some s
      ∧ ∀ (host : Host) (behind input : List UInt8) (c : Config),
          parser.Scans
            (surroundings g (translation g root symbolPrefix options)
              (TranslatesTo g root symbolPrefix options) m)
            host (behind ++ input) behind.length
            { c with state := s, position := behind.length, index := 0 }
            (scan (transform.getD .identity) (g.node m).entries [] input) := by
  obtain ⟨spans, l, _, himage, hroot, _, hreached⟩ :=
    image_of_ofGraph hg.sound hok
  have hid : m < g.size := hg.sound.reaches_lt hroot hm
  obtain ⟨s, hs⟩ := hreached m hm
  refine ⟨s, hs, fun host behind input c => ?_⟩
  rw [← himage.lands_eq]
  exact himage.scans_of_entry hg.sound hid hkind hkeys hs host behind input c

/-- A node with a key that begins another, and one that peeks. -/
def words : Graph :=
  Build.replay [.node "word", .error 1 "short", .error 2 "long",
    .error 3 "end",
    .matchKey 0 [0x61, 0x62] 1, .matchKey 0 [0x61, 0x62, 0x63, 0x64] 2,
      .peek 0 0x2e 3,
    .skipTo 0 0] {}

theorem built_words : words.Built :=
  Graph.Built.new.replay (by decide)

theorem ofGraph_words : ∃ parser, ofGraph words 0 "p" {} = .ok parser := by
  have hok : (ofGraph words 0 "p" {}).isOk = true := by
    cbv
  cases hparser : ofGraph words 0 "p" {} with
  | ok parser => exact ⟨parser, rfl⟩
  | error cause =>
      rw [hparser] at hok
      cases hok

/-- The short key is taken where the long one does not go on. -/
theorem dispatch_scans_words : ∃ parser s, ofGraph words 0 "p" {} = .ok parser
    ∧ translation words 0 "p" {} 0 = some s
    ∧ ∀ (host : Host) (c : Config), parser.Scans
        (surroundings words (translation words 0 "p" {})
          (TranslatesTo words 0 "p" {}) 0)
        host [0x61, 0x62, 0x78] 0
          { c with state := s, position := 0, index := 0 }
        (.hit ⟨1, none⟩ 2) := by
  obtain ⟨parser, hok⟩ := ofGraph_words
  have hkind : (words.node 0).kind = .dispatch none := by decide
  obtain ⟨s, hs, hscans⟩ :=
    dispatch_scans built_words hok .refl hkind (by decide)
  refine ⟨parser, s, hok, hs, fun host c => ?_⟩
  have hscan : scan .identity (words.node 0).entries [] [0x61, 0x62, 0x78]
      = .hit ⟨1, none⟩ 2 := by
    decide
  rw [← hscan]
  exact hscans host [] [0x61, 0x62, 0x78] c

end Parser

end Bytewise

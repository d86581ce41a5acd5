/-
Keys that are matched.

A key of a match node is compared with what the node's transform makes of
the input, and is itself taken as it is. So it is read off just the bytes
that the transform turns into it. There are such bytes if the transform
leaves the key alone, and then they are read however the input is cut: the
edge of the key is taken with its value, and the byte behind it is left
(`literal_taken`). Other keys are declared in vain.
-/
import Bytewise.Proofs.Parser.Reading
import Bytewise.Proofs.Parser.Values

namespace Bytewise

namespace Transform

variable {t : Transform} {key : List UInt8}

/-- A byte that has been normalized stays as it is. -/
theorem apply_apply (t : Transform) (b : UInt8) :
    t.apply (t.apply b) = t.apply b := by
  have hall : ∀ n : Fin 256, t.apply (t.apply (UInt8.ofNat n))
      = t.apply (UInt8.ofNat n) := by
    cases t <;> decide +kernel
  have hb : UInt8.ofNat b.toNat = b := UInt8.ofNat_toNat
  rw [← hb]
  exact hall ⟨b.toNat, b.toNat_lt⟩

/-- Some input is turned into a key if and only if the key is left alone. -/
theorem exists_map_iff :
    (∃ w : List UInt8, w.map t.apply = key) ↔ key.map t.apply = key := by
  constructor
  · rintro ⟨w, rfl⟩
    rw [List.map_map]
    exact List.map_congr_left fun b _ => t.apply_apply b
  · exact fun h => ⟨key, h⟩

end Transform

namespace Parser

variable {parser : Parser} {bp : Blueprint} {root m : NodeId}
  {entry : NodeId → Option StateId} {l : Layout} {s : StateId}

/-- From `c` on, with `chunks` to come, the parser takes an edge: it leaves
`read` bytes behind and not one more, comes to where the edge leads, with its
value if it has one, and has done nothing else that a host could tell. -/
def TakesEdge (parser : Parser) (around : Surroundings) (host : Host)
    (data : List UInt8) (c : Config) (chunks : List (List UInt8)) (read : Nat)
    (edge : Edge) :
    Prop :=
  ∃ d, parser.ReadsOver around.own host data c chunks d
    ∧ around.lands edge.target d.state
    ∧ d.position = c.position + read ∧ d.index = 0
    ∧ (∀ v, edge.value = some v → d.matched = some v) ∧ d.fields = c.fields
    ∧ d.calls = c.calls

/-- What is turned into a key is read as the key, whatever the chunks, if the
byte behind it does not go on with any key. -/
theorem literal_taken {g : Graph} {symbolPrefix : String} {options : Options}
    (hg : g.Built) (hok : ofGraph g root symbolPrefix options = .ok parser)
    (hm : g.Reaches root m) {transform : Option Transform}
    (hkind : (g.node m).kind = .dispatch transform) {edge : Edge}
    (hedge : edge ∈ (g.node m).edges) {key : List UInt8}
    (hkey : edge.key = some (.bytes key)) (hreads : edge.noAdvance = false) :
    ∃ s, translation g root symbolPrefix options m = some s
      ∧ ((∃ w : List UInt8, w.map (transform.getD .identity).apply = key)
        ↔ key.map (transform.getD .identity).apply = key)
      ∧ ∀ (host : Host) (behind first : List UInt8)
          (others : List (List UInt8)) (c : Config)
          (w : List UInt8) (b : UInt8) (more : List UInt8),
          w.map (transform.getD .identity).apply = key →
          first ++ others.flatten = w ++ b :: more →
          (∀ other ∈ (g.node m).entries,
            ¬ key ++ [(transform.getD .identity).apply b] <+: other.key) →
          parser.TakesEdge
            (surroundings g (translation g root symbolPrefix options)
              (TranslatesTo g root symbolPrefix options) m)
            host (behind ++ first)
              { c with state := s, position := behind.length, index := 0 }
            others w.length edge := by
  obtain ⟨spans, l, hspans, himage, hroot, _, hreached⟩ :=
    image_of_ofGraph hg.sound hok
  have hdisciplined :=
    himage.disciplined hg.sound (hg.sound.endsChecked hspans)
    (hg.sound.slotsAllocated hspans)
  have hid : m < g.size := hg.sound.reaches_lt hroot hm
  have hlands := himage.lands_eq
  obtain ⟨s, hs⟩ := hreached m hm
  refine ⟨s, hs, Transform.exists_map_iff, ?_⟩
  intro host behind first others c w b more hw hinput hnext
  let e : TrieEntry := ⟨key, edge.target, edge.noAdvance, edge.value⟩
  have he : e ∈ (g.node m).entries :=
    mem_entries.mpr ⟨edge, hedge, entry?_eq_some.mpr ⟨hkey, rfl, rfl, rfl⟩⟩
  have hread : TrieEntry.scan (transform.getD .identity) (g.node m).entries []
      (w ++ b :: more)
      = .hit e.leaf e.key.length :=
    TrieEntry.scan_key (hg.sound.nodes m hid).entries_distinct he
      hreads hw hnext
  have hlength : e.key.length = w.length := by
    show key.length = w.length
    rw [← hw, List.length_map]
  have hscans := himage.scans_of_entry hg.sound hid hkind
    (List.ne_nil_of_mem hedge) hs host behind
    (w ++ b :: more) c
  rw [hread, hlength, ← hinput, ← List.append_assoc] at hscans
  obtain ⟨s', hs', hsteps⟩ := hscans
  have hle : behind.length ≤ (behind ++ first).length := by
    rw [List.length_append]
    exact Nat.le_add_right _ _
  obtain ⟨d, hover, hlevel⟩ :=
    ReadsOver.of_steps hdisciplined hsteps.to_reflTransGen hle (.refl _)
  refine ⟨d, ?_, ?_, hlevel.place.2.1, hlevel.place.2.2, ?_, hlevel.fields,
    hlevel.calls⟩
  · rw [← hlands]
    exact hover
  · rw [hlevel.place.1, ← hlands]
    exact hs'
  · -- the edge has a value, so it leads to a state that takes one
    intro v hv
    have htakes : g.TakesValue edge.target :=
      ((hg.lawful.nodes m hid).values edge (List.mem_append_left _ hedge)).mp
        (by rw [hv]; rfl)
    rw [hlevel.matched (himage.takesValue_of_node hs' htakes)]
    show (edge.value <|> c.matched) = some v
    rw [hv]
    rfl

/-- Words without regard to case. One key is a capital, and one begins
another. -/
def folded : Graph :=
  Build.replay [.property .i8 "kind", .intrinsic (.store "kind"),
    .node "word", .invoke 0,
    .error 1 "capital", .error 2 "short", .error 3 "none", .transform 0 .lower,
    .matchKey 0 [0x41] 2, .matchKey 0 [0x78] 3, .select 0 [0x78, 0x61] 7 1,
      .otherwise 0 4,
    .otherwise 1 4] {}

theorem built_folded : folded.Built :=
  Graph.Built.new.replay (by decide +kernel)

theorem ofGraph_folded : ∃ parser, ofGraph folded 0 "p" {} = .ok parser := by
  have hok : (ofGraph folded 0 "p" {}).isOk = true := by
    cbv
  cases hparser : ofGraph folded 0 "p" {} with
  | ok parser => exact ⟨parser, rfl⟩
  | error cause =>
      rw [hparser] at hok
      cases hok

/-- "X" and "A" make up the key "xa", with its value, and also if the input is
cut between them. -/
theorem literal_taken_folded : ∃ parser s, ofGraph folded 0 "p" {} = .ok parser
    ∧ translation folded 0 "p" {} 0 = some s
    ∧ ∀ (host : Host) (c : Config), parser.TakesEdge
        (surroundings folded (translation folded 0 "p" {})
          (TranslatesTo folded 0 "p" {}) 0)
        host [0x58] { c with state := s, position := 0, index := 0 }
          [[0x41, 0x2e]] 2
        ⟨some (.bytes [0x78, 0x61]), 1, false, some 7⟩ := by
  obtain ⟨parser, hok⟩ := ofGraph_folded
  have hkind : (folded.node 0).kind = .dispatch (some .lower) := by
    decide +kernel
  have hedge : ⟨some (.bytes [0x78, 0x61]), 1, false, some 7⟩
      ∈ (folded.node 0).edges := by
    decide +kernel
  obtain ⟨s, hs, -, htaken⟩ :=
    literal_taken built_folded hok .refl hkind hedge rfl rfl
  refine ⟨parser, s, hok, hs, fun host c => ?_⟩
  exact htaken host [] [0x58] [[0x41, 0x2e]] c [0x58, 0x41] 0x2e []
    (by decide) rfl
    (by decide +kernel)

-- ============================================================= refuted

/-- Within one chunk reading comes to one end. -/
private theorem ReadsOver.eq_of_steps {own : StateId → Prop} {host : Host}
    {data : List UInt8} {chunks : List (List UInt8)} {c d e : Config}
    (hover : parser.ReadsOver own host data c chunks d) (hone : chunks = [])
    (hd : ¬ parser.Reads own d)
    (hsteps : Relation.ReflTransGen (parser.ReadStep own host data) c e)
    (he : ¬ parser.Reads own e) : d = e := by
  induction hover with
  | here =>
      rcases hsteps.cases_head with heq | ⟨_, hstep, _⟩
      · exact heq
      · exact absurd hstep.1 hd
  | step hstep _ ih =>
      rcases hsteps.cases_head with rfl | ⟨_, hstep', hrest⟩
      · exact absurd hstep.1 he
      · obtain rfl := Step.next.inj (hstep.2.symm.trans hstep'.2)
        exact ih hone hd hrest
  | chunk _ _ _ _ => cases hone

/-- Where an edge leads to a node that is not a match node, no keys of another
node are read. -/
private theorem not_reads_of_lands {g : Graph}
    {entry : NodeId → Option StateId} {lands : NodeId → StateId → Prop}
    {n : NodeId} {d : Config}
    (hlands : ∀ n s, lands n s → ∃ k, g.Forwards n k ∧ entry k = some s)
    (hkind : ∀ t, (g.node n).kind ≠ .dispatch t) (hne : n ≠ m)
    (hd : lands n d.state) :
    ¬ parser.Reads (surroundings g entry lands m).own d := by
  rintro ⟨hown, -⟩
  obtain ⟨k, hforwards, hk⟩ := hlands n d.state hd
  rcases hforwards.cases_head with rfl | ⟨_, ⟨t, _, hdispatch, _⟩, _⟩
  · exact hne (hown n hk)
  · exact hkind t hdispatch

/-- If a scan comes out at another position, the edge is not taken. -/
private theorem not_takesEdge {around : Surroundings} {host : Host}
    {data : List UInt8} {c e : Config} {read : Nat} {edge : Edge}
    (apart : ∀ d, around.lands edge.target d.state →
      ¬ parser.Reads around.own d)
    (hsteps : Relation.TransGen (parser.ReadStep around.own host data) c e)
    (he : ¬ parser.Reads around.own e)
    (hposition : e.position ≠ c.position + read) :
    ¬ parser.TakesEdge around host data c [] read edge := by
  rintro ⟨d, hover, hlands, hread, -⟩
  have heq := hover.eq_of_steps rfl (apart d hlands) hsteps.to_reflTransGen he
  rw [heq] at hread
  exact hposition hread

/-- A key with a byte that the transform changes is not matched by itself: "A"
is compared as "a", and the node otherwise goes on. Nor does a key end before a
byte that goes on with another one only once it is transformed: behind "x" the
"A" makes up "xa". -/
theorem literal_missed : ∃ parser s, folded.Built
    ∧ ofGraph folded 0 "p" {} = .ok parser
    ∧ translation folded 0 "p" {} 0 = some s
    ∧ ⟨some (.bytes [0x41]), 2, false, none⟩ ∈ (folded.node 0).edges
    ∧ ⟨some (.bytes [0x78]), 3, false, none⟩ ∈ (folded.node 0).edges
    ∧ (∀ other ∈ (folded.node 0).entries, ¬ [0x41, 0x2e] <+: other.key)
    ∧ (∀ other ∈ (folded.node 0).entries, ¬ [0x78, 0x41] <+: other.key)
    ∧ ∀ (host : Host) (c : Config),
      ¬ parser.TakesEdge
          (surroundings folded (translation folded 0 "p" {})
            (TranslatesTo folded 0 "p" {}) 0)
          host [0x41, 0x2e] { c with state := s, position := 0, index := 0 }
            [] 1
          ⟨some (.bytes [0x41]), 2, false, none⟩
      ∧ ¬ parser.TakesEdge
          (surroundings folded (translation folded 0 "p" {})
            (TranslatesTo folded 0 "p" {}) 0)
          host [0x78, 0x41] { c with state := s, position := 0, index := 0 }
            [] 1
          ⟨some (.bytes [0x78]), 3, false, none⟩ := by
  obtain ⟨parser, hok⟩ := ofGraph_folded
  obtain ⟨spans, l, _, himage, _, _, hreached⟩ :=
    image_of_ofGraph built_folded.sound hok
  have hlands := himage.lands_eq
  obtain ⟨s, hs⟩ := hreached 0 .refl
  have hkind : (folded.node 0).kind = .dispatch (some .lower) := by
    decide +kernel
  have hid : 0 < folded.size := by decide +kernel
  have hkeys : (folded.node 0).edges ≠ [] := by decide +kernel
  have hother : (folded.node 0).otherwise = some ⟨none, 4, true, none⟩ := by
    decide +kernel
  -- no other node matches, so what has come to one of them has been read
  have apart : ∀ n ∈ [1, 2, 3, 4], ∀ d : Config,
      TranslatesTo folded 0 "p" {} n d.state →
      ¬ parser.Reads (surroundings folded (translation folded 0 "p" {})
        (TranslatesTo folded 0 "p" {}) 0).own d := by
    intro n hn d hd
    have hothers : ∀ n ∈ [1, 2, 3, 4], n ≠ 0 ∧ (folded.node n).kind
        ∈ [.invoke 0, .error 1 "capital", .error 2 "short",
            .error 3 "none"] := by
      decide +kernel
    obtain ⟨hne, hcalls⟩ := hothers n hn
    refine not_reads_of_lands (fun _ _ h => h) (fun t ht => ?_) hne hd
    rw [ht] at hcalls
    simp at hcalls
  refine ⟨parser, s, built_folded, hok, hs, by decide +kernel, by
    decide +kernel,
    by decide +kernel, by decide +kernel, fun host c => ⟨?_, ?_⟩⟩
  · have hscans := himage.scans_of_entry built_folded.sound hid hkind
      hkeys hs host []
      [0x41, 0x2e] c
    have hscan : TrieEntry.scan .lower (folded.node 0).entries [] [0x41, 0x2e]
        = .miss 0 := by
      decide +kernel
    dsimp only [Option.getD_some] at hscans
    rw [hscan, hlands] at hscans
    obtain ⟨edge, s', hedge, hs', hsteps⟩ := hscans
    obtain rfl := Option.some.inj (hother.symm.trans hedge)
    exact not_takesEdge (apart 2 (by decide)) hsteps
      (apart 4 (by decide) _ hs') Nat.zero_ne_one
  · have hscans := himage.scans_of_entry built_folded.sound hid hkind
      hkeys hs host []
      [0x78, 0x41] c
    have hscan : TrieEntry.scan .lower (folded.node 0).entries [] [0x78, 0x41]
        = .hit ⟨1, some 7⟩ 2 := by
      decide +kernel
    dsimp only [Option.getD_some] at hscans
    rw [hscan, hlands] at hscans
    obtain ⟨s', hs', hsteps⟩ := hscans
    exact not_takesEdge (apart 3 (by decide)) hsteps
      (apart 1 (by decide) _ hs') (by decide : (2 : Nat) ≠ 1)

end Parser

end Bytewise

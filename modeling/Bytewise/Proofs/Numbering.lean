/-
What is generated does not depend on numbers.

Graphs number their nodes, codes and spans in the order in which they come
to be, and manifests in the order in which they declare them. None of this
shows in what is generated: a renumbering of what the root leads to gives
the same artifact, or the same cause, whatever else there is.
-/
import Mathlib
import Bytewise.Artifact
import Bytewise.Proofs.Manifest.Reordering

namespace Bytewise

namespace Artifact

theorem ofGraph_congr {g g' : Graph} {root root' : NodeId}
    {symbolPrefix : String} {options : Options}
    (h : Parser.ofGraph g root symbolPrefix options
      = Parser.ofGraph g' root' symbolPrefix options) :
    ofGraph g root symbolPrefix options = ofGraph g' root' symbolPrefix
        options := by
  unfold ofGraph
  rw [h]

/-- Renumbered graphs are compiled to the same. -/
theorem ofGraph_renumbered {g g' : Graph} {root root' : NodeId}
    {node : NodeId → NodeId} {span : SpanId → SpanId}
    (h : Graph.Renumbering node span g root g' root') (hg : g.Sound)
    (hg' : g'.Sound) (hroot : root < g.size) (hroot' : root' < g'.size)
    (hproperties : g.properties = g'.properties) (symbolPrefix : String)
    (options : Options) :
    ofGraph g root symbolPrefix options = ofGraph g' root' symbolPrefix
        options :=
  ofGraph_congr
    ((h.matches hg hg' hroot hroot').ofGraph_eq ⟨.refl, h.start⟩ hproperties
    symbolPrefix options)

/-- Graphs whose roots lead to the same under other numbers are compiled to the
same. So are the graphs of two manifests with the same properties, spans and
root, if all codes and nodes that one declares the other declares too, in
whatever order and among whatever else. -/
theorem ofGraph_numbering :
    (∀ (g g' : Graph) (root root' : NodeId) (node : NodeId →
      NodeId) (span : SpanId → SpanId),
      g.Built → g'.Built → root < g.size → root' < g'.size →
        g.properties = g'.properties →
        Graph.Renumbering node span g root g' root' → ∀ symbolPrefix options,
          ofGraph g root symbolPrefix options
            = ofGraph g' root' symbolPrefix options)
    ∧ ∀ (m m' : Manifest) (loaded loaded' : Manifest.Loaded),
      m.toGraph = .ok loaded → m'.toGraph = .ok loaded' →
        m.properties = m'.properties →
        m.spans = m'.spans → m.root = m'.root → m.codes ⊆ m'.codes →
          m.nodes ⊆ m'.nodes →
          ∀ symbolPrefix options,
            ofGraph loaded.graph loaded.root symbolPrefix options
            = ofGraph loaded'.graph loaded'.root symbolPrefix options := by
  refine ⟨fun g g' root root' node span hg hg' hroot hroot' hproperties h =>
    ?_,
    fun m m' loaded loaded' hm hm' hproperties hspans hroot hcodes hnodes =>
      ?_⟩
  · exact ofGraph_renumbered h hg.sound hg'.sound hroot hroot' hproperties
  · have h := Manifest.describes_of_toGraph hm
    have h' := Manifest.describes_of_toGraph hm'
    refine ofGraph_renumbered (h.renumbering h' hcodes hspans hnodes hroot)
      h.sound h'.sound
      h.root_lt h'.root_lt (Array.toList_inj.mp ?_)
    rw [h.properties, h'.properties, hproperties]

-- ============================================================= letters

/-- A loop that marks each letter and then tells of it. -/
def letters : Graph where
  nodes := #[
    ⟨"span_start_on_mark", .spanStart 0, [], some ⟨none, 1, true, none⟩⟩,
    ⟨"letter", .dispatch none, [⟨some (.bytes [0x61]), 2, false, none⟩],
      some ⟨none, 4, true, none⟩⟩,
    ⟨"span_end_on_mark", .spanEnd 0, [], some ⟨none, 3, true, none⟩⟩,
    ⟨"invoke_on_letter", .invoke 1, [], some ⟨none, 0, true, none⟩⟩,
    ⟨"error", .error 1 "no letter", [], none⟩]
  codes := #[⟨"on_mark", .external .span⟩, ⟨"on_letter", .external .plain⟩]
  spans := #[0]

theorem built_letters : letters.Built := by
  have hmade : letters = Build.replay [.externalCode "on_mark" .span,
      .externalCode "on_letter" .plain, .span 0, .spanStart 0 none,
        .node "letter", .spanEnd 0 none,
      .invoke 1, .error 1 "no letter", .otherwise 0 1, .matchKey 1 [0x61] 2,
        .otherwise 1 4,
      .otherwise 2 3, .otherwise 3 0] {} := by cbv
  rw [hmade]
  exact Graph.Built.new.replay (by decide)

/-- The same loop the other way round, behind a code, a span and a node that it
does not use. -/
def lettersBack : Graph where
  nodes := #[
    ⟨"span_start_on_spare", .spanStart 0, [], some ⟨none, 5, true, none⟩⟩,
    ⟨"error", .error 1 "no letter", [], none⟩,
    ⟨"invoke_on_letter", .invoke 1, [], some ⟨none, 5, true, none⟩⟩,
    ⟨"span_end_on_mark", .spanEnd 1, [], some ⟨none, 2, true, none⟩⟩,
    ⟨"letter", .dispatch none, [⟨some (.bytes [0x61]), 3, false, none⟩],
      some ⟨none, 1, true, none⟩⟩,
    ⟨"span_start_on_mark", .spanStart 1, [], some ⟨none, 4, true, none⟩⟩]
  codes := #[⟨"on_spare", .external .span⟩, ⟨"on_letter", .external .plain⟩,
    ⟨"on_mark", .external .span⟩]
  spans := #[0, 2]

theorem built_lettersBack : lettersBack.Built := by
  have hmade : lettersBack = Build.replay [.externalCode "on_spare" .span,
      .externalCode "on_letter" .plain, .externalCode "on_mark" .span,
        .span 0, .span 2,
      .spanStart 0 none, .error 1 "no letter", .invoke 1, .spanEnd 1 none,
        .node "letter",
      .spanStart 1 none, .otherwise 0 5, .otherwise 2 5, .otherwise 3 2,
        .matchKey 4 [0x61] 3,
      .otherwise 4 1, .otherwise 5 4] {} := by cbv
  rw [hmade]
  exact Graph.Built.new.replay (by decide)

theorem letters_renumbered :
    Graph.Renumbering (fun n => 5 - n) (fun s => s + 1) letters 0
        lettersBack 5 := by
  have hlt : ∀ n, letters.Reaches 0 n → n < 5 := fun n =>
    built_letters.sound.reaches_lt (by decide)
  refine .of_injOn rfl (fun a ha b hb hab => ?_) (fun n hn => ?_)
    (fun s t _ _ hst => Nat.succ_lt_succ hst) fun s hs => ?_
  · exact (tsub_right_inj (Nat.le_of_lt (hlt a ha))
      (Nat.le_of_lt (hlt b hb))).mp hab
  · have hn := hlt n hn
    interval_cases n
    · exact ⟨rfl, .spanStart rfl, .nil, .some ⟨rfl, rfl, rfl, rfl⟩⟩
    · exact ⟨rfl, .dispatch none, .cons ⟨rfl, rfl, rfl, rfl⟩ .nil,
        .some ⟨rfl, rfl, rfl, rfl⟩⟩
    · exact ⟨rfl, .spanEnd rfl, .nil, .some ⟨rfl, rfl, rfl, rfl⟩⟩
    · exact ⟨rfl, .invoke rfl, .nil, .some ⟨rfl, rfl, rfl, rfl⟩⟩
    · exact ⟨rfl, .error 1 "no letter", .nil, .none⟩
  · have hs : s < 1 := hs.lt built_letters.sound (by decide)
    obtain rfl := Nat.lt_one_iff.mp hs
    rfl

/-- The declarations of the loop. -/
def lettersNodes : List Manifest.NodeDecl :=
  [{ name := "open", kind := .spanStart "mark", otherwise := some "letter" },
    { name := "letter", kind := .dispatch none, otherwise := some "stop",
      edges := [{ matchKey := some (.bytes [0x61]), next := "close" }] },
    { name := "close", kind := .spanEnd "mark", otherwise := some "tell" },
    { name := "tell", kind := .invoke "on_letter", otherwise := some "open" },
    { name := "stop", kind := .error 1 "no letter" }]

/-- A manifest with these codes and nodes, and a span of marks. -/
def marksManifest (codes : List Manifest.CodeDecl)
    (nodes : List Manifest.NodeDecl) : Manifest where
  root := "open"
  codes := codes
  spans := [⟨"mark", "on_mark"⟩]
  nodes := nodes

/-- The loop as it is written down. -/
def lettersManifest : Manifest :=
  marksManifest [⟨"on_mark", .external .span⟩, ⟨"on_letter", .external .plain⟩]
    lettersNodes

/-- The same declarations the other way round, behind one of a code and of a
node that calls it. -/
def lettersManifestBack : Manifest :=
  marksManifest
      [⟨"on_spare", .external .plain⟩, ⟨"on_letter", .external .plain⟩,
      ⟨"on_mark", .external .span⟩]
    ({ name := "spare", kind := .invoke "on_spare", otherwise := some "open" }
      :: lettersNodes.reverse)

/-- Manifests that load have graphs numbered in two ways. -/
theorem ofGraph_letters :
    ofGraph letters 0 "l" {} = ofGraph lettersBack 5 "l" {}
      ∧ ∃ loaded loaded', lettersManifest.toGraph = .ok loaded
        ∧ lettersManifestBack.toGraph = .ok loaded' ∧ loaded.root = 0
        ∧ loaded'.root = 5
        ∧ ofGraph loaded.graph loaded.root "l" {} = ofGraph loaded'.graph
            loaded'.root "l" {} := by
  refine ⟨ofGraph_numbering.1 letters lettersBack 0 5 _ _ built_letters
    built_lettersBack
    (by decide) (by decide) rfl letters_renumbered "l" {}, ?_⟩
  have hroot : lettersManifest.toGraph.map (·.root) = .ok 0 := by
    decide +kernel
  have hroot' : lettersManifestBack.toGraph.map (·.root) = .ok 5 := by
    decide +kernel
  obtain ⟨loaded, hloaded, hroot⟩ := ok_of_map hroot
  obtain ⟨loaded', hloaded', hroot'⟩ := ok_of_map hroot'
  exact ⟨loaded, loaded', hloaded, hloaded', hroot, hroot',
    ofGraph_numbering.2 _ _ loaded loaded' hloaded hloaded' rfl rfl
      rfl (by decide)
      (List.subset_cons_of_subset _ fun _ => List.mem_reverse.mpr) "l" {}⟩

end Artifact

end Bytewise

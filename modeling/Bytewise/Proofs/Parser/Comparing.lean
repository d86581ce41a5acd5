/-
How the parsers of graphs compare literals.

The literals of their sequences are not empty, so a comparison that begins
has a byte to read. One that has paused is gone on with at the state it
has paused in, which has the same literal.
-/
import Bytewise.Proofs.Execution.Indices
import Bytewise.Proofs.Parser.Chunking

namespace Bytewise.Parser

open Machine

/-- Comparisons read within their literals, and otherwise there is nothing to
go on from. -/
structure ComparesInside (parser : Parser) (host : Host) : Prop where
  /-- It is known of every session whether it is in the middle of a
  comparison. -/
  sessions : ∀ data i, parser.Session host data i → ∃ comparing,
    parser.Rests host data i comparing
  /-- The index is zero between two calls unless a comparison has not ended. -/
  between : ∀ data i, parser.Rests host data i false → i.config.index = 0
  /-- The index is zero where any other state is entered. -/
  entered : ∀ data chunk i c, parser.Session host data i → i.Ready →
    parser.Goes host (data ++ chunk) (restart i.config) c →
      (parser.machine.state c.state).kind ≠ .sequence → c.index = 0
  /-- Where a sequence is entered, the index is inside of its literal; and so
  are all places that the emitted comparison reads from there on. -/
  inside : ∀ data chunk i c, parser.Session host data i → i.Ready →
    parser.Goes host (data ++ chunk) (restart i.config) c →
      (parser.machine.state c.state).kind = .sequence →
        ∃ literal, parser.literal? c.state = some literal
          ∧ c.index < literal.length
          ∧ ∀ constant, Holds constant literal →
            let input := (data ++ chunk).drop c.position
            let transform := (parser.machine.state c.state).effectiveTransform
            let compared := compareConstant transform constant literal.length
              input c.index
            (∀ place ∈ compared.2, place < literal.length)
              ∧ compared.1 = matchLiteral transform literal input c.index

/-- Whatever the host does, the parser of a graph never compares input with
what lies beyond a literal, and does not skip any of it: the index is zero
wherever no comparison has paused. -/
theorem compares_inside {g : Graph} {root : NodeId} {symbolPrefix : String}
    {options : Options} {parser : Parser} (hg : g.Built)
    (hok : ofGraph g root symbolPrefix options = .ok parser)
    (host : Host) : parser.ComparesInside host := by
  have hwell := wellFormed_of_ofGraph hg.sound hok
  have hplaced : ∀ {data chunk i c}, parser.Session host data i →
      parser.Goes host (data ++ chunk) (restart i.config) c →
          parser.Placed c := by
    intro data chunk i c hsession hgoes
    obtain ⟨comparing, hrests⟩ := session_iff_rests.mp hsession
    exact ((hrests.placed hwell).1.restart.goes hwell hgoes).1
  refine ⟨fun data i => session_iff_rests.mp, fun data i hrests =>
    (hrests.placed hwell).2 rfl,
    fun data chunk i c hsession _ hgoes hkind =>
      (hplaced hsession hgoes).index.zero hkind,
    fun data chunk i c hsession _ hgoes hkind => ?_⟩
  have hhere := hplaced hsession hgoes
  obtain ⟨literal, hliteral, hindex⟩ :=
    hhere.index.inside hwell hhere.live hkind
  refine ⟨literal, hliteral, hindex, fun constant hholds => ?_⟩
  obtain ⟨heq, hplaces⟩ := compareConstant_eq hholds _ _ hindex
  exact ⟨hplaces, heq⟩

/-- A pair whose second byte has not come yet is gone on with at that byte. -/
theorem compares_inside_pairs : ∃ i, pairsParser.Session silent [0x61] i
    ∧ i.Ready
    ∧ pairsParser.literal? i.config.state = some [0x61, 0x62]
    ∧ i.config.index = 1
    ∧ ∀ constant, Holds constant [0x61, 0x62] →
      ∀ place ∈ (compareConstant .identity constant 2 [0x63] i.config.index).2,
          place < 2 := by
  have hrun : ∃ d, pairsParser.Passes silent ([] ++ [0x61])
      (restart pairsParser.init) [0, 1]
      (.waits d) ∧ d.state = 1 ∧ d.index = 1 :=
    ⟨_, .next rfl (.waits rfl), rfl, rfl⟩
  obtain ⟨d, hrun, hstate, hindex⟩ := hrun
  have hsession : pairsParser.Session silent [0x61]
      { config := pairsParser.finish [0x61] d } :=
    .call .init (.runs ⟨rfl, rfl⟩ hrun .reads)
  have hliteral : pairsParser.literal? d.state = some [0x61, 0x62] := by
    rw [hstate]
    rfl
  refine ⟨_, hsession, ⟨rfl, rfl⟩, hliteral, hindex, fun constant hholds => ?_⟩
  have hkind : (pairsParser.machine.state d.state).kind = .sequence :=
    (literal?_eq_some.mp hliteral).1
  obtain ⟨literal, hfound, -, hinside⟩ :=
    (compares_inside built_pairs ofGraph_pairs silent).inside
    [0x61] [0x63] _ _ hsession ⟨rfl, rfl⟩ .refl hkind
  obtain rfl := Option.some.inj (hfound.symm.trans hliteral)
  have hplaces := (hinside constant hholds).1
  have htransform : (pairsParser.machine.state d.state).effectiveTransform
      = .identity := by
    rw [hstate]
    rfl
  exact htransform ▸ hplaces

end Bytewise.Parser

/-
Spans of the parsers of graphs, across pauses.

Where a chunk ends, the generated code hands over the bytes of open spans;
where the parser pauses, it returns without doing so, and the next call
begins the spans anew all the same. A span gets its bytes if nothing is
pending in its slot whenever the parser pauses, and only then.
-/
import Bytewise.Proofs.Artifact
import Bytewise.Proofs.Execution.Pauses
import Bytewise.Proofs.Parser.Chunking

namespace Bytewise.Parser

variable {parser : Parser} {host : Host} {slot : SlotId} {callback : CodeId}
  {b e e' : Config} {lost data : List UInt8}

/-- Of the input between the start of a span and its end, the callback of the
span gets, in order, all that was not pending at a pause. So it gets all of it
if and only if nothing was. -/
theorem spans_delivered_iff {g : Graph} {root : NodeId} {symbolPrefix : String}
    {options : Options} (hg : g.Built)
    (hok : ofGraph g root symbolPrefix options = .ok parser)
    (h : parser.Spans host slot callback b lost data e e') :
    (∃ bytes : List UInt8, e'.delivered slot = b.delivered slot ++ bytes.map
        (·, callback)
        ∧ bytes.Sublist ((data.take e.position).drop b.position)
        ∧ bytes.length + lost.length
          = ((data.take e.position).drop b.position).length)
      ∧ (e'.delivered slot
          = b.delivered slot ++ ((data.take e.position).drop b.position).map
            (·, callback)
        ↔ lost = []) := by
  obtain ⟨spans, l, hspans, himage, _⟩ := image_of_ofGraph hg.sound hok
  have hdisciplined :=
    himage.disciplined hg.sound (hg.sound.endsChecked hspans)
    (hg.sound.slotsAllocated hspans)
  obtain ⟨bytes, hbytes, hsub, hlen⟩ := hdisciplined.delivers h
  refine ⟨⟨bytes, hbytes, hsub, hlen⟩, fun hall => ?_, fun hnone => ?_⟩
  · rw [hbytes] at hall
    have hsame := congrArg List.length (List.append_cancel_left hall)
    rw [List.length_map, List.length_map] at hsame
    exact List.eq_nil_of_length_eq_zero (by omega)
  · subst hnone
    rw [hbytes, hsub.eq_of_length hlen]

/-- From an "a" to the next "b" there is a span, and a pause behind the "a". -/
def holds : Graph :=
  Build.replay [.externalCode "on_span" .span, .span 0, .node "first",
    .pause 1 "hold",
    .node "second", .spanEnd 0 none, .spanStart 0 (some 0),
      .matchKey 0 [0x61] 1, .skipTo 0 0,
    .otherwise 1 2, .matchKey 2 [0x62] 3, .skipTo 2 2, .otherwise 3 4] {}

theorem built_holds : holds.Built :=
  Graph.Built.new.replay (by decide)

/-- The parser of the holds. -/
def holdsParser : Parser where
  symbolPrefix := "p"
  machine.states := #[
    { name := "p__n_span_start_on_span", nodeName := "span_start_on_span",
      kind := .spanStart 0 0
      otherwise := some (.otherwise 1 true) },
    { name := "p__n_first", nodeName := "first", kind := .single
      edges := [⟨some (.byte 0x61), 2, false, none⟩]
      otherwise := some (.otherwise 1 false) },
    { name := "p__n_pause", nodeName := "pause", kind := .pause 1 "hold"
      otherwise := some (.otherwise 3 true) },
    { name := "p__n_second", nodeName := "second", kind := .single
      edges := [⟨some (.byte 0x62), 4, false, none⟩]
      otherwise := some (.otherwise 3 false) },
    { name := "p__n_span_end_on_span", nodeName := "span_end_on_span",
      kind := .spanEnd 0 0
      otherwise := some (.otherwise 0 true) }]
  machine.codes := #[⟨"on_span", .external .span⟩]
  root := 0
  slots := [[0]]
  resumable := [0, 1, 3]

theorem ofGraph_holds : ofGraph holds 4 "p" {} = .ok holdsParser := by
  cbv

/-- Of "ab" the parser has read "a" when it pauses. -/
theorem spans_holds :
    ∃ e e', holdsParser.Spans silent 0 0 (restart holdsParser.init) [0x61]
    [0x61, 0x62] e e' ∧ e.position = 2 ∧ e'.delivered 0 = [(0x62, 0)] := by
  let go := fun c => match holdsParser.step silent [0x61, 0x62] c with
    | .next c' => c'
    | _ => c
  let opened := go (restart holdsParser.init)
  let pausing := go opened
  let resumed :=
    restart { pausing with state := (Machine.Edge.otherwise 3 true).target }
  let closing := go resumed
  have hread : holdsParser.Leaves silent 0 [0x61, 0x62] opened []
      [0x61, 0x62] pausing :=
    .move .here (.step rfl) rfl
  have hpaused : holdsParser.Leaves silent 0 [0x61, 0x62] opened [0x61]
      [0x61, 0x62] resumed :=
    hread.move (.resume rfl rfl) rfl
  have hpath : holdsParser.Leaves silent 0 [0x61, 0x62] opened [0x61]
      [0x61, 0x62] closing :=
    hpaused.move (.step rfl) rfl
  exact ⟨closing, go closing,
    ⟨⟨_, opened, .start _, rfl, rfl, hpath⟩, ⟨0, rfl⟩, rfl⟩, rfl, rfl⟩

/-- The callback of the span gets the "b" only. -/
theorem spans_delivered_holds :
    ∃ e e', holdsParser.Spans silent 0 0 (restart holdsParser.init)
    [0x61] [0x61, 0x62] e e'
      ∧ ∃ bytes : List UInt8, e'.delivered 0 = bytes.map (·, 0)
          ∧ bytes.length + 1 = 2 := by
  obtain ⟨e, e', hspans, hposition, _⟩ := spans_holds
  obtain ⟨⟨bytes, hbytes, _, hlen⟩, _⟩ :=
    spans_delivered_iff built_holds ofGraph_holds hspans
  refine ⟨e, e', hspans, bytes, hbytes, ?_⟩
  rw [hposition] at hlen
  exact hlen

/-- Compilation succeeds where a pause loses what its parser has read of a
span. -/
theorem accepted_loses : ∃ g root artifact parser, g.Built
    ∧ Artifact.ofGraph g root "p" {} = .ok artifact
    ∧ ofGraph g root "p" {} = .ok parser
    ∧ ¬ parser.SpansDelivered := by
  obtain ⟨artifact, hartifact⟩ :=
    Artifact.exists_of_program (by decide) ofGraph_holds (by cbv)
  refine ⟨holds, 4, artifact, holdsParser, built_holds, hartifact,
    ofGraph_holds, fun hall => ?_⟩
  obtain ⟨e, e', hspans, hposition, hdelivered⟩ := spans_holds
  have hbytes := hall _ _ _ _ _ _ _ _ hspans
  rw [hdelivered, hposition] at hbytes
  exact absurd hbytes (by decide)

end Bytewise.Parser

/-
Parsers of one graph for symbols with different prefixes.

All that is assembled looks at names only to find out which are taken, and
a form of a name is taken under the one prefix if and only if it is under
the other. So the two assemblies are in step (`Assembly.Renamed`): every
action does the same to both, but for what follows the prefix staying the
same where the prefix does not. Redirections do not look at names at all.
-/
import Bytewise.Proofs.Machine.Abreast
import Bytewise.Proofs.NameSupply
import Bytewise.Proofs.Parser.Actions
import Bytewise.Proofs.Parser.Image

namespace Bytewise

variable {p q : String}

-- =============================================================== codes

/-- The codes are one callback, or intrinsics that differ in what their names
start with. -/
structure Code.Renamed (p q : String) (c c' : Code) : Prop where
  kind : c'.kind = c.kind
  callback : c.kind.isExternal = true → c'.name = c.name
  intrinsic : c.kind.isExternal = false →
    ∃ rest, c.name = p ++ "__c_" ++ rest ∧ c'.name = q ++ "__c_" ++ rest

/-- Only callbacks are told apart by their names. -/
theorem Code.Renamed.key {c c' : Code} (h : c.Renamed p q c') :
    c'.key = c.key := by
  obtain ⟨name, kind⟩ := c
  obtain ⟨name', kind'⟩ := c'
  obtain rfl : kind' = kind := h.kind
  cases kind' with
  | external signature =>
      obtain rfl : name' = name := h.callback rfl
      rfl
  | _ => rfl

-- ============================================================ machines

namespace Machine

/-- The states differ in what their names start with. -/
def State.Renamed (p q : String) (s s' : State) : Prop :=
  ∃ rest, s.name = p ++ "__n_" ++ rest
    ∧ s' = { s with name := q ++ "__n_" ++ rest }

/-- The machines differ in what the names of states and intrinsics start
with. -/
structure Renamed (p q : String) (m m' : Machine) : Prop where
  states : Abreast (State.Renamed p q) m m'
  codes : List.Forall₂ (Code.Renamed p q) m.codes.toList m'.codes.toList

variable {m m' : Machine}

/-- Names do not matter to what is redirected. -/
theorem State.steady_renamed (p q : String) :
    State.Steady (State.Renamed p q) where
  passes := by
    rintro s s' ⟨rest, -, rfl⟩ edge
    exact ⟨fun h => ⟨h.kind, h.edges, h.otherwise, h.stays, h.value⟩,
      fun h => ⟨h.kind, h.edges, h.otherwise, h.stays, h.value⟩⟩
  order := by
    rintro s s' ⟨rest, -, rfl⟩
    rfl
  move := by
    rintro s s' ⟨rest, hname, rfl⟩ f
    exact ⟨rest, hname, rfl⟩

/-- The states are one, but for their names. -/
theorem Renamed.state (h : m.Renamed p q m') (id : StateId) :
    m'.state id = { m.state id with name := (m'.state id).name } := by
  rcases h.states.related id with ⟨rest, -, hstate⟩ | heq
  · rw [hstate]
  · rw [heq]

theorem Renamed.size_codes (h : m.Renamed p q m') :
    m'.codes.size = m.codes.size := by
  rw [← Array.length_toList, ← Array.length_toList]
  exact h.codes.length_eq.symm

/-- Codes keep their places and are renamed there. -/
theorem Renamed.code (h : m.Renamed p q m') {id : CodeId}
    (hid : id < m.codes.size) :
    (m.code id).Renamed p q (m'.code id) := by
  have hid' : id < m'.codes.size := h.size_codes ▸ hid
  have hget := h.codes.get hid hid'
  simpa [Machine.code, Array.getD, hid, hid'] using hget

theorem Renamed.code_kind (h : m.Renamed p q m') (id : CodeId) :
    (m'.code id).kind = (m.code id).kind := by
  by_cases hid : id < m.codes.size
  · exact (h.code hid).kind
  · have hid' : ¬ id < m'.codes.size := h.size_codes ▸ hid
    simp [Machine.code, Array.getD, hid, hid']

/-- A code is found by its key in the same place. -/
theorem Renamed.findIdx (h : m.Renamed p q m') (key : String) :
    m'.codes.findIdx? (·.key == key) = m.codes.findIdx? (·.key == key) := by
  have hkeys : m'.codes.map Code.key = m.codes.map Code.key := by
    refine Array.toList_inj.mp ?_
    rw [Array.toList_map, Array.toList_map]
    refine List.forall₂_eq_eq_eq ▸ List.forall₂_map_left_iff.mpr
      (List.forall₂_map_right_iff.mpr ?_)
    exact h.codes.flip.imp fun _ _ hcode => hcode.key
  have hfind : ∀ codes : Array Code, codes.findIdx? (·.key == key)
      = (codes.map Code.key).findIdx? (· == key) := fun codes => by
    rw [Array.findIdx?_map]
    rfl
  rw [hfind, hfind, hkeys]

/-- The same callbacks are to be linked. -/
theorem Renamed.callbacks (h : m.Renamed p q m') :
    m'.callbacks = m.callbacks := by
  have hnamed : ∀ signature,
      (m'.codes.toList.filter (·.kind == .external signature)).map (·.name)
        = (m.codes.toList.filter (·.kind == .external signature)).map
            (·.name) := by
    intro signature
    have hcodes := h.codes
    generalize m.codes.toList = codes, m'.codes.toList = codes' at hcodes
    induction hcodes with
    | nil => rfl
    | @cons c c' cs cs' hcode _ ih =>
        rw [List.filter_cons, List.filter_cons, hcode.kind]
        split
        · rename_i hkind
          rw [List.map_cons, List.map_cons, ih,
            hcode.callback (beq_iff_eq.mp hkind ▸ rfl)]
        · exact ih
  unfold Machine.callbacks
  simp only [hnamed]

/-- The removal of forwarding states does not look at names. -/
theorem Renamed.skipForwarding (h : m.Renamed p q m') (root : StateId)
    (ids : List StateId) :
    (m.skipForwarding root ids).1.Renamed p q (m'.skipForwarding root ids).1
      ∧ (m.skipForwarding root ids).2 = (m'.skipForwarding root ids).2 := by
  obtain ⟨hstates, hroot⟩ :=
    h.states.skipForwarding (State.steady_renamed p q) root ids
  refine ⟨⟨hstates, ?_⟩, hroot⟩
  rw [(onward_skipForwarding m root ids).codes,
    (onward_skipForwarding m' root ids).codes]
  exact h.codes

/-- States are enumerated in the same order. -/
theorem Renamed.enumerate (h : m.Renamed p q m') (root : StateId) :
    m.enumerate root = m'.enumerate root :=
  h.states.enumerate (State.steady_renamed p q) root

/-- States may be left for the same ones. -/
theorem Renamed.resumeTargets (h : m.Renamed p q m') (id : StateId) :
    m.resumeTargets id = m'.resumeTargets id := by
  unfold Machine.resumeTargets
  rw [h.state id]

end Machine

-- =========================================================== assemblies

namespace Assembly

/-- The assemblies differ in what the names of states and intrinsics start
with. -/
structure Renamed (p q : String) (a a' : Assembly) : Prop where
  machine : a.machine.Renamed p q a'.machine
  stateNames : NameSupply.Alike (p ++ "__n_") (q ++ "__n_") a.stateNames
    a'.stateNames
  codeNames : NameSupply.Alike (p ++ "__c_")
    (q ++ "__c_") a.codeNames a'.codeNames
  entered : a.entered = a'.entered

/-- The program fails alike on such assemblies, or answers the same and leaves
such. -/
def Respects (p q : String) {α : Type} (x : Assemble α) : Prop :=
  ∀ a a', a.Renamed p q a' →
    Agree (fun r r' => r.1 = r'.1 ∧ r.2.Renamed p q r'.2) (x.run a) (x.run a')

variable {α β : Type} {a a' : Assembly}

/-- Empty assemblies differ in the prefix only. -/
theorem Renamed.start (p q : String) (size : Nat) :
    (start p size).Renamed p q (start q size) :=
  ⟨⟨⟨rfl, fun _ hid => absurd hid (Nat.not_lt_zero _)⟩, .nil⟩, .fresh _ _,
    .fresh _ _, rfl⟩

/-- A step that does not fail. -/
private theorem Respects.of_run {x : Assemble α} {v : Assembly → α}
    {next : Assembly → Assembly} (hrun : ∀ a, x.run a = .ok (v a, next a))
    (hvalue : ∀ {a a'}, a.Renamed p q a' → v a = v a')
    (hnext : ∀ {a a'}, a.Renamed p q a' → (next a).Renamed p q (next a')) :
    Respects p q x := by
  intro a a' h
  rw [hrun, hrun]
  exact .ok ⟨hvalue h, hnext h⟩

/-- States changed alike, and not in name, differ in name only. -/
private theorem Renamed.changed (h : a.Renamed p q a') (s : StateId)
    {change : Machine.State → Machine.State}
    (hname : ∀ state : Machine.State, (change state).name = state.name)
    (hchange : ∀ (state : Machine.State) name,
      change { state with name } = { change state with name }) :
    (a.changed s change).Renamed p q (a'.changed s change) := by
  refine ⟨⟨h.machine.states.modify s fun hs => ?_, h.machine.codes⟩,
    h.stateNames, h.codeNames,
    h.entered⟩
  obtain ⟨rest, hstate, heq⟩ := h.machine.states.states s hs
  refine ⟨rest, (hname _).trans hstate, ?_⟩
  rw [heq, hchange]

/-- Codes that are added alike differ in name only. -/
private theorem Renamed.coded (h : a.Renamed p q a')
    {codeNames codeNames' : NameSupply} {c c' : Code}
    (hnames : NameSupply.Alike (p ++ "__c_") (q ++ "__c_") codeNames
      codeNames')
    (hcode : c.Renamed p q c') :
    (a.coded codeNames c).Renamed p q (a'.coded codeNames' c') := by
  refine ⟨⟨⟨h.machine.states.size, h.machine.states.states⟩, ?_⟩, h.stateNames,
    hnames, h.entered⟩
  show List.Forall₂ _ (a.machine.codes.push c).toList
    (a'.machine.codes.push c').toList
  rw [Array.toList_push, Array.toList_push]
  exact List.rel_append h.machine.codes (.cons hcode .nil)

/-- Adding a state respects prefixes. -/
private theorem respects_addState (nodeName : String)
    (kind : Machine.StateKind) (transform : Option Transform) :
    Respects p q (addState nodeName kind transform) := by
  refine .of_run (fun _ => rfl) (fun h => h.machine.states.size)
    fun {a a'} h => ?_
  obtain ⟨⟨rest, hname, hname'⟩, halike⟩ := h.stateNames.alloc nodeName
  refine ⟨⟨h.machine.states.push ⟨rest, hname, ?_⟩, h.machine.codes⟩,
    halike, h.codeNames,
    h.entered⟩
  exact congrArg (Machine.State.mk · nodeName kind transform [] none) hname'

private theorem respects_addCode (code : Code) :
    Respects p q (addCode code) := by
  intro a a' h
  simp only [addCode, StateT.run_bind, StateT.run_get, pure_bind,
    h.machine.findIdx]
  cases a.machine.codes.findIdx? (·.key == code.key) with
  | some id =>
      dsimp only
      rw [h.machine.code_kind]
      split
      · exact .ok ⟨rfl, h⟩
      · exact .error _
  | none =>
      dsimp only
      rw [h.machine.size_codes]
      cases hkind : code.kind.isExternal with
      | true =>
          exact .ok
              ⟨rfl, h.coded h.codeNames ⟨rfl, fun _ => rfl, fun hinternal =>
            absurd (hkind.symm.trans hinternal) (by decide)⟩⟩
      | false =>
          obtain ⟨hnames, halike⟩ := h.codeNames.alloc code.name
          exact .ok ⟨rfl, h.coded halike ⟨rfl, fun hexternal =>
            absurd (hkind.symm.trans hexternal) (by decide), fun _ => hnames⟩⟩

/-- All actions do the same under both prefixes. -/
theorem inherited_respects (p q : String) :
    Inherited fun _ x => Respects p q x where
  pure v a a' h := .ok ⟨rfl, h⟩
  bind hx hf a a' h := by
    rw [StateT.run_bind, StateT.run_bind]
    refine (hx a a' h).bind fun (v, b) (v', b') ⟨hv, hb⟩ => ?_
    obtain rfl : v = v' := hv
    exact hf v b b' hb
  ask n f hasks hf a a' h := by
    have hstate : a.stateOf? n = a'.stateOf? n := by
      unfold stateOf?
      rw [h.entered]
    show Agree _ ((f a).run a) ((f a').run a')
    rw [← hasks a a' hstate]
    exact hf a a a' h
  throw cause _ _ _ _ := .error cause
  addState := respects_addState
  enter n s := .of_run (fun _ => rfl) (fun _ => rfl) fun h =>
    ⟨h.machine, h.stateNames, h.codeNames,
      congrArg (·.setIfInBounds n (some s)) h.entered⟩
  setEdges s edges := .of_run (fun _ => rfl) (fun _ => rfl) fun h =>
    h.changed s (fun _ => rfl) fun _ _ => rfl
  setOtherwise s edge := .of_run (fun _ => rfl) (fun _ => rfl) fun h =>
    h.changed s (fun _ => rfl) fun _ _ => rfl
  fillOtherwise edge s := .of_run (fun _ => rfl) (fun _ => rfl) fun h => by
    refine h.changed s (fun state => ?_) fun state name => ?_
    · split <;> rfl
    · dsimp only
      split <;> rfl
  addCode := respects_addCode

end Assembly

-- ============================================================== parsers

/-- The parsers differ in what the names of states and intrinsics start
with. -/
structure Parser.Renamed (p q : String) (parser parser' : Parser) : Prop where
  symbolPrefix : parser.symbolPrefix = p ∧ parser'.symbolPrefix = q
  machine : parser.machine.Renamed p q parser'.machine
  root : parser.root = parser'.root
  properties : parser.properties = parser'.properties
  slots : parser.slots = parser'.slots
  resumable : parser.resumable = parser'.resumable

/-- With another prefix a graph fails for the same cause, or its parser differs
in the names. -/
theorem Parser.ofGraph_renamed (g : Graph) (root : NodeId) (options : Options)
    (p q : String) :
    Bytewise.Agree (Parser.Renamed p q) (ofGraph g root p options)
        (ofGraph g root q options) := by
  unfold ofGraph assembled
  refine Bytewise.Agree.bind (R := fun r r' => r.1 = r'.1
    ∧ r.2.Renamed p q r'.2) ?_ ?_
  · refine (Bytewise.Agree.refl (fun _ => rfl) _).bind fun _ _ _ => ?_
    refine (Bytewise.Agree.refl (fun _ => rfl) _).bind fun _ _ _ => ?_
    refine (Bytewise.Agree.refl (R := Eq) (fun _ => rfl) _).bind
      fun spans spans' heq => ?_
    obtain rfl := heq
    exact (Assembly.inherited_respects p q).assemble root _ _
      (.start p q g.size)
  · rintro ⟨⟨slots, root⟩, done⟩ ⟨⟨slots', root'⟩, done'⟩ ⟨heq, hdone⟩
    obtain ⟨rfl, rfl⟩ := Prod.mk.inj heq
    have hlisted := hdone.machine.enumerate root
    obtain ⟨hmachine, hroot⟩ :=
      hdone.machine.skipForwarding root (done.machine.enumerate root)
    dsimp only
    rw [← hlisted, ← hroot, ← hmachine.enumerate]
    refine .ok ⟨⟨rfl, rfl⟩, hmachine, rfl, rfl, rfl, ?_⟩
    dsimp only
    congr 2
    exact List.flatMap_congr fun s _ => hmachine.resumeTargets s

end Bytewise

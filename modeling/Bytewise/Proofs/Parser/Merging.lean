/-
Codes are merged exactly if they are one function.

`Collects` follows an assembly with the codes added to it so far, whatever
else is done in between. One invariant is carried along: the codes of the
machine are those that were added, one for each key. As keys are equal
exactly if codes are one function, a code that is added finds itself, or
is new; the only one that cannot be added is a callback whose name stands
for a callback of another kind.
-/
import Bytewise.Proofs.Parser.Names

namespace Bytewise

namespace Assembly

/-- The assembly has come about with these codes added to it, in this order. -/
inductive Collects : List Code → Assembly → Prop where
  | start (symbolPrefix : String) (size : Nat) : Collects []
      (start symbolPrefix size)
  | code {earlier : List Code} {a a' : Assembly} {code : Code} {id : CodeId}
      (before : Collects earlier a)
      (run : (addCode code).run a = .ok (id, a')) :
      Collects (earlier ++ [code]) a'
  | other {earlier : List Code} {a a' : Assembly} (before : Collects earlier a)
      (codes : a'.machine.codes = a.machine.codes) : Collects earlier a'

variable {earlier : List Code} {a a' : Assembly} {code : Code} {id : CodeId}

/-- The code of the machine is what the code is kept as. -/
structure Keeping (m : Machine) (id : CodeId) (code : Code) : Prop where
  lt : id < m.codes.size
  kind : (m.code id).kind = code.kind
  name : code.kind.isExternal = true → (m.code id).name = code.name

theorem Keeping.key {m : Machine} (h : Keeping m id code) :
    (m.code id).key = code.key := by
  refine Code.key_eq_iff.mpr ?_
  cases hexternal : code.kind.isExternal with
  | true => exact Or.inl ⟨h.kind ▸ hexternal, hexternal, h.name hexternal⟩
  | false => exact Or.inr ⟨h.kind ▸ hexternal, hexternal, h.kind⟩

/-- A code that is found by its key and kind. -/
theorem Keeping.of_key {m : Machine} (lt : id < m.codes.size)
    (key : (m.code id).key = code.key)
    (kind : (m.code id).kind = code.kind) : Keeping m id code := by
  refine ⟨lt, kind, fun hexternal => ?_⟩
  rcases Code.key_eq_iff.mp key with ⟨-, -, hname⟩ | ⟨-, hinternal, -⟩
  · exact hname
  · exact absurd (hexternal.symm.trans hinternal) (by decide)

theorem Keeping.push {m : Machine} (h : Keeping m id code) (new : Code) :
    Keeping { m with codes := m.codes.push new } id code := by
  have hold := Machine.code_push_of_lt h.lt new
  refine ⟨?_, hold ▸ h.kind, hold ▸ h.name⟩
  show id < (m.codes.push new).size
  rw [Array.size_push]
  exact Nat.lt_succ_of_lt h.lt

/-- A code that is put to the others under another name, or its own if it is a
callback. -/
theorem Keeping.pushed (m : Machine) {name : String}
    (h : code.kind.isExternal = true → name = code.name) :
    Keeping { m with codes := m.codes.push { code with name } } m.codes.size
        code := by
  have hnew := Machine.code_push_size m { code with name }
  refine ⟨?_, by rw [hnew], fun hexternal => by rw [hnew]; exact h hexternal⟩
  show _ < (m.codes.push _).size
  rw [Array.size_push]
  exact Nat.lt_succ_self _

/-- The codes of the machine are those added so far, one for each key. -/
structure Collected (earlier : List Code) (m : Machine) : Prop where
  apart : ∀ i j, i < m.codes.size → j < m.codes.size →
    (m.code i).key = (m.code j).key → i = j
  kept : ∀ code ∈ earlier, ∃ id, Keeping m id code
  known : ∀ id, id < m.codes.size → ∃ code ∈ earlier, Keeping m id code

/-- A code may be added that is there. -/
theorem Collected.again {m : Machine} (h : Collected earlier m)
    (hcode : Keeping m id code) :
    Collected (earlier ++ [code]) m where
  apart := h.apart
  kept c hc := by
    rcases List.mem_append.mp hc with hc | hc
    · exact h.kept c hc
    · rw [List.mem_singleton.mp hc]
      exact ⟨id, hcode⟩
  known i hi := by
    obtain ⟨c, hc, hkept⟩ := h.known i hi
    exact ⟨c, List.mem_append_left _ hc, hkept⟩

/-- A code may be added that has a new key. -/
theorem Collected.push {m : Machine} (h : Collected earlier m) {name : String}
    (hname : code.kind.isExternal = true → name = code.name)
    (hfresh : ∀ c, c < m.codes.size → (m.code c).key ≠ code.key) :
    Collected (earlier ++ [code])
        { m with codes := m.codes.push { code with name } } := by
  have hnew := Keeping.pushed m hname
  have hcases : ∀ {i}, i < (m.codes.push { code with name }).size →
      i < m.codes.size ∨ i = m.codes.size := fun hi =>
    Nat.lt_succ_iff_lt_or_eq.mp (by rwa [Array.size_push] at hi)
  refine ⟨fun i j hi hj hkey => ?_, fun c hc => ?_, fun i hi => ?_⟩
  · rcases hcases hi with hi | rfl <;> rcases hcases hj with hj | rfl
    · rw [Machine.code_push_of_lt hi, Machine.code_push_of_lt hj] at hkey
      exact h.apart i j hi hj hkey
    · rw [Machine.code_push_of_lt hi, hnew.key] at hkey
      exact absurd hkey (hfresh i hi)
    · rw [Machine.code_push_of_lt hj, hnew.key] at hkey
      exact absurd hkey.symm (hfresh j hj)
    · rfl
  · rcases List.mem_append.mp hc with hc | hc
    · obtain ⟨i, hi⟩ := h.kept c hc
      exact ⟨i, hi.push _⟩
    · rw [List.mem_singleton.mp hc]
      exact ⟨_, hnew⟩
  · rcases hcases hi with hi | rfl
    · obtain ⟨c, hc, hkept⟩ := h.known i hi
      exact ⟨c, List.mem_append_left _ hc, hkept.push _⟩
    · exact ⟨code, List.mem_append_right _ (List.mem_singleton.mpr rfl), hnew⟩

/-- Adding a code answers what it is kept as, among the codes so far and it. -/
theorem Collected.add (h : Collected earlier a.machine)
    (hrun : (addCode code).run a = .ok (id, a')) :
    Collected (earlier ++ [code]) a'.machine ∧ Keeping a'.machine id code := by
  cases added a code with
  | found i lt key kind run =>
      obtain ⟨rfl, rfl⟩ := Prod.mk.inj (Except.ok.inj (hrun.symm.trans run))
      have hkept := Keeping.of_key lt key kind
      exact ⟨h.again hkept, hkept⟩
  | conflict i lt key kind run => exact nomatch hrun.symm.trans run
  | fresh name codeNames key callback intrinsic run =>
      obtain ⟨rfl, rfl⟩ := Prod.mk.inj (Except.ok.inj (hrun.symm.trans run))
      have hname := fun hexternal => (callback hexternal).1
      exact ⟨h.push hname key, Keeping.pushed a.machine hname⟩

/-- Only the codes of a machine matter. -/
theorem Collected.congr {m m' : Machine} (h : Collected earlier m)
    (hcodes : m'.codes = m.codes) :
    Collected earlier m' := by
  have hcode : ∀ i, m'.code i = m.code i := fun i => by
    unfold Machine.code
    rw [hcodes]
  have hkeeping : ∀ {i c}, Keeping m i c → Keeping m' i c := fun hc =>
    ⟨hcodes ▸ hc.lt, hcode _ ▸ hc.kind, hcode _ ▸ hc.name⟩
  refine ⟨fun i j hi hj hkey => ?_, fun c hc => ?_, fun i hi => ?_⟩
  · rw [hcode, hcode] at hkey
    exact h.apart i j (hcodes ▸ hi) (hcodes ▸ hj) hkey
  · obtain ⟨i, hi⟩ := h.kept c hc
    exact ⟨i, hkeeping hi⟩
  · obtain ⟨c, hc, hkept⟩ := h.known i (hcodes ▸ hi)
    exact ⟨c, hc, hkeeping hkept⟩

theorem Collects.collected (h : Collects earlier a) :
    Collected earlier a.machine := by
  induction h with
  | start symbolPrefix size =>
      exact ⟨fun i _ hi => absurd hi (Nat.not_lt_zero i), fun _ hc =>
        absurd hc List.not_mem_nil,
        fun i hi => absurd hi (Nat.not_lt_zero i)⟩
  | code _ run ih => exact (ih.add run).1
  | other _ codes ih => exact ih.congr codes

/-- What is assembled has come about so, and what fails for a name has come to
a code that is refused. -/
theorem collects_stable :
    Stable (fun a => ∃ earlier, Collects earlier a) fun cause =>
    ∀ name, cause = .codeNameConflict name → ∃ earlier a code,
      Collects earlier a
      ∧ code.name = name ∧ (addCode code).run a = .error cause where
  pushed _ _ _ := fun ⟨earlier, h⟩ => ⟨earlier, h.other rfl⟩
  changed _ _ _ := fun ⟨earlier, h⟩ => ⟨earlier, h.other rfl⟩
  entering _ _ := fun ⟨earlier, h⟩ => ⟨earlier, h.other rfl⟩
  others _ hother name hconflict := absurd hconflict (hother name)
  added code a := fun ⟨earlier, h⟩ => by
    refine ⟨fun _ _ hrun => ⟨_, h.code hrun⟩,
      fun cause hrun name hconflict => ?_⟩
    refine ⟨earlier, a, code, h, ?_, hrun⟩
    cases added a code with
    | found id lt key kind run => exact nomatch hrun.symm.trans run
    | fresh name codeNames key callback intrinsic run =>
        exact nomatch hrun.symm.trans run
    | conflict id lt key kind run =>
        rw [hconflict] at hrun
        exact (Cause.codeNameConflict.inj
          (Except.error.inj (hrun.symm.trans run))).symm

/-- What becomes of a code that is added behind others. -/
structure Merges (earlier : List Code) (a : Assembly) : Prop where
  /-- No two codes of the machine are one function. -/
  apart : ∀ i j, i < a.machine.codes.size → j < a.machine.codes.size →
    (a.machine.code i).Same (a.machine.code j) → i = j
  /-- A code becomes one of exactly its kind; a callback keeps its name. -/
  kept : ∀ code id a', (addCode code).run a = .ok (id, a') →
    id < a'.machine.codes.size
    ∧ (a'.machine.code id).kind = code.kind
    ∧ (code.kind.isExternal = true → (a'.machine.code id).name = code.name)
  /-- A code cannot be added if and only if it is a callback, and there was one
  of its name and of another kind. -/
  refused : ∀ code, (∃ cause, (addCode code).run a = .error cause)
    ↔ code.kind.isExternal = true ∧ ∃ c ∈ earlier, c.kind.isExternal = true
      ∧ c.name = code.name ∧ c.kind ≠ code.kind

theorem Collected.refused (h : Collected earlier a.machine) (code : Code) :
    (∃ cause, (addCode code).run a = .error cause)
      ↔ code.kind.isExternal = true ∧ ∃ c ∈ earlier, c.kind.isExternal = true
        ∧ c.name = code.name ∧ c.kind ≠ code.kind := by
  constructor
  · rintro ⟨cause, hrun⟩
    cases added a code with
    | found id lt key kind run => exact nomatch hrun.symm.trans run
    | fresh name codeNames key callback intrinsic run =>
        exact nomatch hrun.symm.trans run
    | conflict id lt key kind run =>
        -- codes of one key and of two kinds are callbacks
        rcases Code.key_eq_iff.mp key with ⟨hold, hexternal, hname⟩
          | ⟨-, -, hkind⟩
        · obtain ⟨c, hc, hkept⟩ := h.known id lt
          rw [hkept.kind] at hold kind
          exact ⟨hexternal, c, hc, hold, (hkept.name hold).symm.trans hname,
            kind⟩
        · exact absurd hkind kind
  · rintro ⟨hexternal, c, hc, hcext, hname, hkind⟩
    obtain ⟨id, hkept⟩ := h.kept c hc
    have hkey : (a.machine.code id).key = code.key :=
      hkept.key.trans (Code.key_eq_iff.mpr (Or.inl ⟨hcext, hexternal, hname⟩))
    cases added a code with
    | found i lt key kind run =>
        obtain rfl := h.apart i id lt hkept.lt (key.trans hkey.symm)
        exact absurd (hkept.kind.symm.trans kind) hkind
    | conflict i lt key kind run => exact ⟨_, run⟩
    | fresh name codeNames key callback intrinsic run =>
        exact absurd hkey (key id hkept.lt)

/-- Keys are equal exactly if codes are one function. So wherever an assembly
has come to, it has no two codes that are one function, adding one more answers
one of its kind, and only a callback that goes by the name of another kind of
callback is refused. Every graph is assembled in this way, and where that fails
for the name of a code, there a code has been refused. -/
theorem codes_merge : (∀ c d : Code, c.key = d.key ↔ c.Same d)
    ∧ (∀ earlier a, Collects earlier a → Merges earlier a)
    ∧ (∀ g root symbolPrefix options r done,
        Parser.assembled g root symbolPrefix options = .ok (r, done) →
        ∃ earlier, Collects earlier done)
    ∧ ∀ (bp : Blueprint) root symbolPrefix name,
        (bp.assemble root).run (start symbolPrefix bp.graph.size)
          = .error (.codeNameConflict name) →
        ∃ earlier a code, Collects earlier a ∧ code.name = name
          ∧ (addCode code).run a = .error (.codeNameConflict name) := by
  refine ⟨fun c d => Code.key_eq_iff, fun earlier a h => ?_, ?_, ?_⟩
  · have hcollected := h.collected
    refine ⟨fun i j hi hj hsame => ?_, fun code id a' hrun => ?_,
      hcollected.refused⟩
    · exact hcollected.apart i j hi hj (Code.key_eq_iff.mpr hsame)
    · have hkept := (hcollected.add hrun).2
      exact ⟨hkept.lt, hkept.kind, hkept.name⟩
  · intro g root symbolPrefix options r done hok
    obtain ⟨_, _, hrest⟩ := ok_of_bind hok
    obtain ⟨_, _, hrest⟩ := ok_of_bind hrest
    obtain ⟨spans, _, hrun⟩ := ok_of_bind hrest
    exact (collects_stable.assemble root _ ⟨[], .start symbolPrefix g.size⟩).1
      _ _ hrun
  · intro bp root symbolPrefix name hrun
    have hkeeps : Keeps _ _ (bp.assemble root) := collects_stable.assemble root
    exact (hkeeps _ ⟨[], .start symbolPrefix bp.graph.size⟩).2 _ hrun name rfl

/-- An assembly with one callback. -/
def oneCallback : Assembly :=
  (start "p" 0).coded (start "p" 0).codeNames ⟨"on_url", .external .span⟩

/-- A callback cannot be called as well if it is a span's. -/
theorem merges_oneCallback : Collects [⟨"on_url", .external .span⟩] oneCallback
    ∧ ∃ cause, (addCode ⟨"on_url", .external .plain⟩).run oneCallback
        = .error cause := by
  have hrun : (addCode ⟨"on_url", .external .span⟩).run (start "p" 0)
      = .ok (0, oneCallback) := by
    simp [addCode, start, oneCallback, coded, CodeKind.isExternal]
    rfl
  have hcollects : Collects ([] ++ [⟨"on_url", .external .span⟩])
      oneCallback :=
    (Collects.start "p" 0).code hrun
  refine ⟨hcollects, ((codes_merge.2.1 _ _ hcollects).refused _).mpr ⟨rfl, ?_⟩⟩
  exact ⟨⟨"on_url", .external .span⟩, List.mem_singleton_self _, rfl,
    rfl, by decide⟩

end Assembly

end Bytewise

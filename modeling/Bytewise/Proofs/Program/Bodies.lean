/-
The bodies of states, kind by kind.

A body is made in a chain of calls that may fail. `BodyOf` has a case for
every way in which one comes about, with the edges it takes and all that
was checked before: what is known of bodies is read off these cases.
-/
import Bytewise.Program.OfParser
import Bytewise.Proofs.Except

namespace Bytewise.Program

open Machine (StateKind Key)

/-- A case for each edge, by its key. -/
def CasesOf {α : Type} (key : α → Key) (edges : List Machine.Edge)
    (cases : List (α × Jump)) :
    Prop :=
  List.Forall₂ (fun edge x => edge.key = some (key x.1) ∧ x.2 = takeEdge edge)
    edges cases

/-- The body of the state `own` of a parser, by its kind. -/
inductive BodyOf (parser : Parser) (own : StateId) (state : Machine.State) :
    StateKind → List Stmt → Prop where
  | consume {field : String} {property : Property} {otherwise : Machine.Edge}
      (found : Program.property parser field = .ok property)
      (integer : requireInteger property "consume" = .ok ())
      (next : state.otherwise = some otherwise) :
      BodyOf parser own state (.consume field) [
        .declare "size_t" "avail",
        .declare property.type.declared "need",
        .blank,
        .measure field,
        .skipAll field (takeEdge otherwise),
        .blank,
        .skipRest field,
        .leave (.state own)]
  | empty {otherwise : Machine.Edge}
      (next : state.otherwise = some otherwise) :
      BodyOf parser own state .empty
        (waitIfConsuming own otherwise ++ [.jump (takeEdge otherwise)])
  | error {code : Int32} {reason : String} :
      BodyOf parser own state (.error code reason)
        [.setError code reason, .setCurrent .error, .leave .error]
  | pause {code : Int32} {reason : String} {otherwise : Machine.Edge}
      (next : state.otherwise = some otherwise) :
      BodyOf parser own state (.pause code reason)
        [.setError code reason, .setCurrent (.state otherwise.target),
          .leave .error]
  | invoke {callee : CodeId} {otherwise : Machine.Edge}
      {cases : List (Int32 × Jump)}
      (next : state.otherwise = some otherwise)
      (checked : checkCode parser (parser.machine.code callee) = .ok ())
      (keys : CasesOf Key.code state.edges cases) :
      BodyOf parser own state (.invoke callee)
        [.call (parser.machine.code callee).name
          (parser.machine.code callee).signature cases
          (takePlain otherwise)]
  | sequence {otherwise edge : Machine.Edge} {rest : List Machine.Edge}
      {literal : List UInt8}
      (next : state.otherwise = some otherwise)
        (first : state.edges = edge :: rest)
      (key : edge.key = some (.bytes literal)) :
      BodyOf parser own state .sequence [
        .declare "llparse_match_t" "match_seq",
        .blank,
        .waitForInput own,
        .matchLiteral state.effectiveTransform { bytes := literal },
        .onOutcome own (takeEdge edge) (takeEdge otherwise)]
  | single {otherwise : Machine.Edge} {cases : List (UInt8 × Jump)}
      (next : state.otherwise = some otherwise)
      (keys : CasesOf Key.byte state.edges cases) :
      BodyOf parser own state .single
        [.waitForInput own, .onByte state.effectiveTransform
          cases (takeEdge otherwise)]
  | table {otherwise : Machine.Edge} {groups : List (List UInt8)}
      (next : state.otherwise = some otherwise)
      (keys : tableKeys state = .ok groups) :
      BodyOf parser own state .table
        ([.declareTable (tableEntries groups), .waitForInput own]
          ++ vectorSkip own state otherwise
          ++ [.onEntry state.effectiveTransform (state.edges.map takeEdge)
            (takeEdge otherwise)])
  | spanStart {slot : SlotId} {callback : CodeId} {otherwise : Machine.Edge}
      (next : state.otherwise = some otherwise)
      (alone : parser.isSharedSlot slot = false) :
      BodyOf parser own state (.spanStart slot callback)
        [.waitForInput own, .openSlot slot, .jump (takePlain otherwise)]
  | sharedStart {slot : SlotId} {callback : CodeId} {otherwise : Machine.Edge}
      (next : state.otherwise = some otherwise)
      (shared : parser.isSharedSlot slot = true)
      (checked : checkCode parser (parser.machine.code callback) = .ok ()) :
      BodyOf parser own state (.spanStart slot callback)
        [.waitForInput own, .openSlot slot,
          .setCallback slot (parser.machine.code callback).name,
            .jump (takePlain otherwise)]
  | spanEnd {slot : SlotId} {callback : CodeId} {otherwise : Machine.Edge}
      (next : state.otherwise = some otherwise)
      (checked : checkCode parser (parser.machine.code callback) = .ok ()) :
      BodyOf parser own state (.spanEnd slot callback)
        (waitIfConsuming own otherwise ++ [
        .declare "const unsigned char*" "start",
        .declare "int" "err",
        .blank,
        .closeSlot slot,
        .callSpan (parser.machine.code callback).name,
        .onSpanError (!otherwise.noAdvance) otherwise.target,
        .jump (takePlain otherwise)])

variable {parser : Parser} {state : Machine.State}

theorem otherwise_of_ok {edge : Machine.Edge}
    (h : otherwiseOf state = .ok edge) :
    state.otherwise = some edge := by
  unfold otherwiseOf at h
  split at h
  · rename_i hother
    rw [hother, Except.ok.inj h]
  · cases h

/-- A code that is named has passed its check. -/
theorem checked_of_codeName {id : CodeId} {name : String}
    (h : codeName parser id = .ok name) :
    checkCode parser (parser.machine.code id) = .ok ()
        ∧ name = (parser.machine.code id).name := by
  obtain ⟨⟨⟩, hcheck, hrest⟩ := ok_of_bind h
  exact ⟨hcheck, (Except.ok.inj hrest).symm⟩

/-- Edges that are read one by one have a case each. -/
theorem casesOf_of_mapM {α : Type} {key : α → Key}
    {read : Machine.Edge → Except Cause (α × Jump)} {edges : List Machine.Edge}
    {cases : List (α × Jump)} (h : edges.mapM read = .ok cases)
    (hread : ∀ edge x, read edge = .ok x → edge.key = some (key x.1)
      ∧ x.2 = takeEdge edge) :
    CasesOf key edges cases :=
  (forall₂_of_mapM h).imp hread

theorem bodyOf_of_kindBody {own : StateId} {body : List Stmt}
    (h : kindBody parser own state = .ok body) :
    BodyOf parser own state state.kind body := by
  unfold kindBody at h
  generalize state.kind = kind at h
  cases kind with
  | consume field =>
      obtain ⟨property, hproperty, hrest⟩ := ok_of_bind h
      obtain ⟨⟨⟩, hinteger, hrest⟩ := ok_of_bind hrest
      obtain ⟨otherwise, hother, hrest⟩ := ok_of_bind hrest
      obtain rfl := Except.ok.inj hrest
      exact .consume hproperty hinteger (otherwise_of_ok hother)
  | empty =>
      obtain ⟨otherwise, hother, hrest⟩ := ok_of_bind h
      obtain rfl := Except.ok.inj hrest
      exact .empty (otherwise_of_ok hother)
  | error code reason =>
      obtain rfl := Except.ok.inj h
      exact .error
  | pause code reason =>
      obtain ⟨otherwise, hother, hrest⟩ := ok_of_bind h
      obtain rfl := Except.ok.inj hrest
      exact .pause (otherwise_of_ok hother)
  | invoke callee =>
      obtain ⟨otherwise, hother, hrest⟩ := ok_of_bind h
      obtain ⟨name, hname, hrest⟩ := ok_of_bind hrest
      obtain ⟨cases, hcases, hrest⟩ := ok_of_bind hrest
      obtain rfl := Except.ok.inj hrest
      obtain ⟨hchecked, rfl⟩ := checked_of_codeName hname
      refine .invoke (otherwise_of_ok hother) hchecked
        (casesOf_of_mapM hcases ?_)
      intro edge x hx
      split at hx
      · rename_i hkey
        obtain rfl := Except.ok.inj hx
        exact ⟨hkey, rfl⟩
      · cases hx
  | sequence =>
      obtain ⟨otherwise, hother, hrest⟩ := ok_of_bind h
      split at hrest
      · rename_i hedges
        split at hrest
        · rename_i hkey
          obtain rfl := Except.ok.inj hrest
          exact .sequence (otherwise_of_ok hother) hedges hkey
        · cases hrest
      · cases hrest
  | single =>
      obtain ⟨otherwise, hother, hrest⟩ := ok_of_bind h
      obtain ⟨cases, hcases, hrest⟩ := ok_of_bind hrest
      obtain rfl := Except.ok.inj hrest
      refine .single (otherwise_of_ok hother) (casesOf_of_mapM hcases ?_)
      intro edge x hx
      split at hx
      · rename_i hkey
        obtain rfl := Except.ok.inj hx
        exact ⟨hkey, rfl⟩
      · cases hx
  | table =>
      obtain ⟨otherwise, hother, hrest⟩ := ok_of_bind h
      obtain ⟨groups, hgroups, hrest⟩ := ok_of_bind hrest
      obtain rfl := Except.ok.inj hrest
      exact .table (otherwise_of_ok hother) hgroups
  | spanStart slot callback =>
      obtain ⟨otherwise, hother, hrest⟩ := ok_of_bind h
      cases hshared : parser.isSharedSlot slot with
      | false =>
          rw [if_neg (by simp [hshared])] at hrest
          obtain rfl := Except.ok.inj hrest
          exact .spanStart (otherwise_of_ok hother) hshared
      | true =>
          rw [if_pos hshared] at hrest
          obtain ⟨name, hname, hrest⟩ := ok_of_bind hrest
          obtain rfl := Except.ok.inj hrest
          obtain ⟨hchecked, rfl⟩ := checked_of_codeName hname
          exact .sharedStart (otherwise_of_ok hother) hshared hchecked
  | spanEnd slot callback =>
      obtain ⟨otherwise, hother, hrest⟩ := ok_of_bind h
      obtain ⟨name, hname, hrest⟩ := ok_of_bind hrest
      obtain rfl := Except.ok.inj hrest
      obtain ⟨hchecked, rfl⟩ := checked_of_codeName hname
      exact .spanEnd (otherwise_of_ok hother) hchecked

end Bytewise.Program

/-
Multiply-and-add, and where it goes wrong.

The checks of a body fail for some constants and for one value of the edge;
`Slip` lists how. A body is sound exactly if nothing slips
(`mulAdd_sound_iff`).
-/
import Bytewise.Proofs.Artifact
import Bytewise.Proofs.Program.Checks
import Bytewise.Proofs.Program.Emission

namespace Bytewise

namespace Program

variable {u : IntType} {base v : Int} {matched : Int32} {t : IntType}
  {property : Property} {options : MulAdd} {low high : Literal}
  {computed : List Int} {rest : List Step}

-- ============================================================= faults

/-- A refusal fails where the other side does. -/
theorem refusal_fault (hint : property.type.isInteger = true)
    (hv : (options.reading property).Holds v) {greater : Bool}
    {right : Operand} {fault : Fault}
    (hright : right.eval (.holding property options.signed v computed) matched
      = .error fault) :
    Refusal.applies (.holding property options.signed v computed) matched
      ⟨fieldOperand property options.signed, greater, right⟩
          = .error fault := by
  unfold Refusal.applies
  dsimp only
  rw [eval_field hint hv, hright]
  rfl

theorem run_refuseIf_fault {frame : Frame} {refusal : Refusal} {fault : Fault}
    (h : refusal.applies frame matched = .error fault) :
    run matched (.refuseIf refusal :: rest) frame = .error fault := by
  show (refusal.applies frame matched >>= _) = _
  rw [h]
  rfl

/-- A base that no type holds makes a quotient fail. -/
theorem eval_quotient_untyped {frame : Frame} {limit : Literal}
    {number : Int64} (h : numberType? number.toInt = none) :
    (Operand.quotient (.limit limit) (.number number)).eval frame matched
      = .error .untyped := by
  have heval : (Operand.number number).eval frame matched
      = .error .untyped := by
    unfold Operand.eval
    rw [h]
  show ((Operand.number number).eval frame matched >>= _) = _
  rw [heval]
  rfl

theorem eval_quotient_zero {frame : Frame} {limit : Literal} {number : Int64}
    (h : number.toInt = 0) :
    (Operand.quotient (.limit limit) (.number number)).eval frame matched
      = .error .divisionByZero := by
  have heval : (Operand.number number).eval frame matched = .ok ⟨.int, 0⟩ := by
    unfold Operand.eval
    rw [h]
    rfl
  have hzero : ((limitType limit).join .int).convert 0 = 0 := by
    unfold IntType.convert
    split
    · exact Int.zero_bmod
    · exact Int.zero_emod _
  show ((Operand.number number).eval frame matched >>= _) = _
  rw [heval]
  show Value.combine divide _ _ = _
  unfold Value.combine divide
  dsimp only
  rw [hzero, if_pos rfl]
  rfl

/-- The least number of a wide field has no opposite. -/
theorem eval_quotient_negated {frame : Frame}
    (hlimits : Limits (options.reading property) low high)
    (hsigned : options.signed = true) (hwide : 32 ≤ property.type.bits)
    (hone : options.base.toInt = -1) :
    (Operand.quotient (.limit low) (.number options.base)).eval frame matched
      = .error .overflow := by
  have heval : (Operand.number options.base).eval frame matched
      = .ok ⟨.int, -1⟩ := by
    unfold Operand.eval
    rw [hone]
    rfl
  have hpromote : (options.reading property).promote
      = options.reading property :=
    if_neg (Nat.not_lt.mpr hwide)
  have hjoin : (limitType low).join .int = options.reading property := by
    rw [hlimits.lowType_of_signed hsigned, join_int, hpromote]
  have hleast := (options.reading property).holds_least
  have hgreatest := (options.reading property).greatest_nonneg
  have heq := IntType.least_of_signed (t := options.reading property) hsigned
  have hminus : (options.reading property).Holds (-1) := by
    constructor <;> omega
  have hover : ¬ (options.reading property).Holds
      (-(options.reading property).least) := by
    intro h
    have := h.2
    omega
  show ((Operand.number options.base).eval frame matched >>= _) = _
  rw [heval]
  show Value.combine divide _ _ = _
  unfold Value.combine divide
  dsimp only
  rw [hjoin, hlimits.least, hleast.convert property.type.bits_pos,
    hminus.convert property.type.bits_pos, if_neg (by decide), Int.tdiv_neg,
      Int.tdiv_one]
  unfold result
  rw [if_pos ⟨hsigned, hover⟩]
  rfl

/-- A zero that is an `int` has nothing to take the least value of the edge
from it. -/
theorem eval_difference_least {frame : Frame}
    (hlimits : Limits (options.reading property) low high)
    (hsigned : options.signed = false) (hnarrow : property.type.bits ≤ 32)
    (hleast : matched.toInt = -2 ^ 31) :
    (Operand.difference (.limit low) .matched).eval frame matched
        = .error .overflow := by
  have htype : limitType low = .int := by
    rw [hlimits.lowType]
    unfold MulAdd.reading FieldType.reading
    rw [hsigned]
    cases htype : property.type <;> rw [htype] at hnarrow <;>
      first
        | rfl
        | exact absurd hnarrow (by decide)
  have hzero : low.value = 0 := by
    rw [hlimits.least]
    exact IntType.least_of_unsigned hsigned
  show Value.combine (fun t x y => result t (x - y)) ⟨limitType low, low.value⟩
    ⟨.int, matched.toInt⟩ = _
  rw [htype, hzero, hleast]
  rfl

-- ========================================================== soundness

/-- What follows the product. -/
def sumSteps (property : Property) (options : MulAdd) (low high : Literal) :
    List Step :=
  [.refuseBySign
    ⟨fieldOperand property options.signed, true,
      .difference (.limit high) .matched⟩
    ⟨fieldOperand property options.signed, false,
      .difference (.limit low) .matched⟩]
  ++ .assign (fieldOperand property options.signed) .add .matched
    :: (maximumCheck property options ++ [.answer (.number 0)])

/-- The steps have a meaning, what they compute for the field are numbers of
the field, and if they answer zero then the field holds the number that it is
to hold, which is not above the maximum. -/
def Sound (property : Property) (options : MulAdd) (matched : Int32)
    (steps : List Step) (frame : Frame) (x : Int) : Prop :=
  ∃ answer last, run matched steps frame = .ok (answer, last)
    ∧ (∀ y ∈ last.computed, (options.reading property).Holds y)
    ∧ (answer = 0 → (options.reading property).convert last.stored = x
        ∧ (options.reading property).Holds x ∧ ∀ max, options.max = some max →
          x ≤ max.toInt)

theorem not_sound_of_fault {steps : List Step} {frame : Frame} {x : Int}
    {fault : Fault} (h : run matched steps frame = .error fault) :
    ¬ Sound property options matched steps frame x := by
  rintro ⟨answer, last, hrun, -⟩
  exact nomatch h.symm.trans hrun

/-- A body that refuses is sound. -/
theorem sound_of_refused {steps : List Step} {frame : Frame} {x : Int}
    (h : run matched steps frame = .ok (1, frame))
    (hcomputed : ∀ y ∈ frame.computed, (options.reading property).Holds y) :
    Sound property options matched steps frame x :=
  ⟨1, frame, h, hcomputed, fun hzero => absurd hzero (by decide)⟩

/-- The maximum goes wrong if it cannot be written, or if it is negative and
becomes a great one that the sum does not exceed. -/
def MaximumSlips (t : IntType) (options : MulAdd) (x : Int) : Prop :=
  ∃ max, options.max = some max
    ∧ (max.toInt = -2 ^ 63 ∨ Wraps t max.toInt ∧ x ≤ max.toInt + 2 ^ t.bits)

/-- Only the least number of 64 bits has no type. -/
theorem numberType?_eq_none (number : Int64) :
    numberType? number.toInt = none ↔ number.toInt = -2 ^ 63 := by
  have hmin := number.le_toInt
  have hmax := number.toInt_lt
  unfold numberType?
  split
  · exact iff_of_false (by simp) (by omega)
  · split
    · exact iff_of_false (by simp) (by omega)
    · exact iff_of_true rfl (by omega)

/-- The check of the maximum is sound unless it slips. -/
theorem maximum_sound_iff (hint : property.type.isInteger = true) {x : Int}
    (hx : (options.reading property).Holds x)
    (hcomputed : ∀ y ∈ computed, (options.reading property).Holds y) :
    Sound property options matched
        (maximumCheck property options ++ [.answer (.number 0)])
        (.holding property options.signed x computed) x
      ↔ ¬ MaximumSlips (options.reading property) options x := by
  by_cases hwritten : ∃ max, options.max = some max ∧ max.toInt = -2 ^ 63
  · obtain ⟨max, hmax, hleast⟩ := hwritten
    refine iff_of_false (not_sound_of_fault (?_ : _ = Except.error .untyped))
        fun h =>
      h ⟨max, hmax, Or.inl hleast⟩
    have heval : (Operand.number max).eval
        (.holding property options.signed x computed) matched
        = .error .untyped := by
      unfold Operand.eval
      rw [(numberType?_eq_none max).mpr hleast]
    unfold maximumCheck
    rw [hmax]
    exact run_refuseIf_fault (refusal_fault hint hx heval)
  · have htyped : ∀ max, options.max = some max →
        ∃ u, numberType? max.toInt = some u := by
      intro max hmax
      cases hu : numberType? max.toInt with
      | none =>
          exact absurd ⟨max, hmax, (numberType?_eq_none max).mp hu⟩ hwritten
      | some u => exact ⟨u, rfl⟩
    have hguards := @guards_maximumCheck x matched property options computed
      hint hx htyped
    by_cases hpasses : ∀ max, options.max = some max → x ≤ max.toInt
        ∨ Wraps (options.reading property) max.toInt
          ∧ x ≤ max.toInt + 2 ^ property.type.bits
    · have hrun : run matched
          (maximumCheck property options ++ [.answer (.number 0)])
          (.holding property options.signed x computed)
            = .ok (0, .holding property options.signed x computed) :=
              hguards.passed hpasses _
      constructor
      · rintro ⟨answer, last, hsound, -, hzero⟩ ⟨max, hmax, hwrong⟩
        obtain ⟨rfl, rfl⟩ :=
          Prod.mk.inj (Except.ok.inj (hrun.symm.trans hsound))
        rcases hwrong with hleast | ⟨hwraps, -⟩
        · exact hwritten ⟨max, hmax, hleast⟩
        · have hle := (hzero rfl).2.2 max hmax
          have hneg := hwraps.2.1
          have hnonneg := IntType.least_of_unsigned hwraps.1 ▸ hx.1
          omega
      · intro hnot
        refine ⟨0, _, hrun, hcomputed, fun _ =>
          ⟨convert_stored hx, hx, fun max hmax => ?_⟩⟩
        exact (hpasses max hmax).resolve_right fun h =>
          hnot ⟨max, hmax, Or.inr h⟩
    · refine iff_of_true
        (sound_of_refused (hguards.refused hpasses _) hcomputed) ?_
      rintro ⟨max, hmax, hwrong⟩
      refine hpasses fun max' hmax' => Or.inr ?_
      obtain rfl := Option.some.inj (hmax.symm.trans hmax')
      exact hwrong.resolve_left fun hleast => hwritten ⟨max, hmax, hleast⟩

/-- The steps of the sum are sound unless a check before it overflows or the
check of the maximum slips. -/
theorem sumSteps_sound_iff (hint : property.type.isInteger = true)
    (hlimits : Limits (options.reading property) low high)
    (hv : (options.reading property).Holds v)
    (hcomputed : ∀ y ∈ computed, (options.reading property).Holds y) :
    Sound property options matched (sumSteps property options low high)
        (.holding property options.signed v computed) (v + matched.toInt)
      ↔ ¬ ((options.signed = false ∧ property.type.bits ≤ 32
        ∧ matched.toInt = -2 ^ 31)
        ∨ (options.reading property).Holds (v + matched.toInt)
          ∧ MaximumSlips (options.reading property) options
              (v + matched.toInt)) := by
  by_cases hdifference : options.signed = false ∧ property.type.bits ≤ 32
    ∧ matched.toInt = -2 ^ 31
  · refine iff_of_false (not_sound_of_fault (?_ : _ = Except.error .overflow))
        fun h =>
      h (Or.inl hdifference)
    obtain ⟨hunsigned, hnarrow, hleast⟩ := hdifference
    have hfault := @eval_difference_least matched property options low high
      (.holding property options.signed v computed) hlimits hunsigned
      hnarrow hleast
    show (Refusal.applies _ _ _ >>= _) = _
    rw [if_neg (by omega), refusal_fault hint hv hfault]
    rfl
  · rw [or_iff_right hdifference]
    have hguards := @guards_sumCheck v matched property options low high
      computed hint hv hlimits
      hdifference
    by_cases hsum : (options.reading property).Holds (v + matched.toInt)
    · rw [and_iff_right hsum]
      have hcomputed' : ∀ y ∈ computed ++ [v + matched.toInt],
          (options.reading property).Holds y := fun y hy => by
        rcases List.mem_append.mp hy with hy | hy
        · exact hcomputed y hy
        · rw [List.mem_singleton.mp hy]
          exact hsum
      rw [← maximum_sound_iff hint hsum hcomputed']
      unfold Sound sumSteps
      rw [hguards.passed hsum, run_add hint hv hsum]
    · exact iff_of_true (sound_of_refused (hguards.refused hsum _) hcomputed)
        fun h => hsum h.1

/-- The body of a multiply-and-add makes the field available with its sign,
then checks and computes the product, and goes on with the sum. -/
theorem run_mulAddBody (hint : property.type.isInteger = true) :
    run matched (mulAddBody property.type property.name options low high)
      (.start property v)
      = run matched (productChecks property options low high
          ++ .blank :: .assign (fieldOperand property options.signed) .multiply
            (.number options.base)
          :: .blank :: .comment "Addition overflow" :: sumSteps property
            options low high)
          (.holding property options.signed v []) := by
  have hbody : mulAddBody property.type property.name options low high
      = (if options.signed then
        property.type.signed?.toList.map (.alias · property.name) else [])
        ++ (productChecks property options low high
          ++ .blank :: .assign (fieldOperand property options.signed) .multiply
            (.number options.base)
          :: .blank :: .comment "Addition overflow" :: sumSteps property
              options low high) := by
    unfold mulAddBody productChecks sumSteps maximumCheck
      quotientCheck fieldOperand
    cases options.signed <;> cases property.type.signed?
      <;> cases options.max <;> rfl
  rw [hbody]
  cases hsigned : options.signed with
  | false => rfl
  | true =>
      obtain ⟨name, hname⟩ := FieldType.exists_signed hint
      rw [hname]
      show (if property.type.signed? = some name
        ∧ property.name = property.name then _ else _) = _
      rw [if_pos ⟨hname, rfl⟩]
      rfl

/-- What makes a multiply-and-add go wrong. -/
inductive Slip (t : IntType) (options : MulAdd) (matched : Int32) (v : Int) :
    Prop where
  /-- The limits are divided by a base of zero. -/
  | zero (base : options.base.toInt = 0)
  /-- The base cannot be written: without its sign it is too great. -/
  | unwritten (base : options.base.toInt = -2 ^ 63)
  /-- The least number of a signed field is divided by minus one, which
  overflows. -/
  | quotient (signed : t.signed = true) (wide : 32 ≤ t.bits)
      (base : options.base.toInt = -1)
      (small : v ≤ -t.greatest)
  /-- A negative base becomes a great one, and a negative product passes. -/
  | product (wraps : Wraps t options.base.toInt) (one : v = 1)
  /-- The least value of the edge is taken from a zero that is an `int`, which
  overflows. -/
  | difference (passes : Passes t options.base.toInt v)
      (unsigned : t.signed = false)
      (narrow : t.bits ≤ 32) (least : matched.toInt = -2 ^ 31)
  /-- The maximum goes wrong. -/
  | maximum (passes : Passes t options.base.toInt v)
      (sum : t.Holds (v * options.base.toInt + matched.toInt))
      (maximum : MaximumSlips t options
        (v * options.base.toInt + matched.toInt))

/-- A base that wraps makes the product of one go on the account as what it
is. -/
theorem not_sound_of_wraps (hint : property.type.isInteger = true)
    (hv : (options.reading property).Holds v)
    (hlimits : Limits (options.reading property) low high)
    (hu : numberType? options.base.toInt = some u)
    (hwraps : Wraps (options.reading property) options.base.toInt)
    (hone : v = 1) {x : Int} :
    ¬ Sound property options matched (productChecks property options low high
        ++ .blank :: .assign (fieldOperand property options.signed) .multiply
          (.number options.base) :: rest)
      (.holding property options.signed v computed) x := by
  rintro ⟨answer, last, hrun, hcomputed, -⟩
  rw [(guards_productChecks_wraps hint hv hlimits hu hwraps).passed hone.le]
    at hrun
  obtain ⟨y, hmultiply⟩ := @run_multiply_wraps u v matched property options
    computed rest hint hv hu
    hwraps
  have hmem := computed_of_run (hmultiply.symm.trans hrun)
    (List.mem_append_right _ (List.mem_singleton.mpr rfl))
  have hheld := (hcomputed _ hmem).1
  rw [IntType.least_of_unsigned hwraps.1, hone, Int.one_mul] at hheld
  exact absurd hwraps.2.1 (Int.not_lt.mpr hheld)

/-- With the base minus one, the second check overflows on the least values. -/
theorem run_productChecks_negated (hint : property.type.isInteger = true)
    (hv : (options.reading property).Holds v)
    (hlimits : Limits (options.reading property) low high)
    (hu : numberType? options.base.toInt = some u)
    (hsigned : options.signed = true) (hwide : 32 ≤ property.type.bits)
    (hone : options.base.toInt = -1)
    (hsmall : v ≤ -(options.reading property).greatest) :
    run matched (productChecks property options low high ++ rest)
      (.holding property options.signed v computed) = .error .overflow := by
  have hwraps : ¬ Wraps (options.reading property) options.base.toInt :=
    fun h =>
    absurd (hsigned.symm.trans h.1) (by decide)
  have hupper := @guards_upper u v matched property options low high computed
    hint hv hlimits hu
    (by omega) hwraps
  have hpass : v ≤ (options.reading property).greatest.tdiv
      options.base.toInt := by
    rwa [hone, Int.tdiv_neg, Int.tdiv_one]
  unfold productChecks
  rw [if_pos hsigned]
  exact ((hupper.comment _).passed hpass _).trans (run_refuseIf_fault
    (refusal_fault hint hv (eval_quotient_negated hlimits hsigned hwide hone)))

/-- With a base that wraps the check lets nothing but zero pass, if the field
is not one. -/
theorem passes_iff_of_wraps (hv : t.Holds v) (hwraps : Wraps t base)
    (hone : v ≠ 1) :
    v ≤ 1 ↔ Passes t base v := by
  have hnonneg := IntType.least_of_unsigned hwraps.1 ▸ hv.1
  unfold Passes
  rw [if_neg (Int.not_lt.mpr hwraps.2.1.le), and_iff_left (Or.inl hwraps)]
  omega

/-- Where nothing slips before the sum, the sum slips or the maximum does. -/
theorem slip_iff_of_checked (hwritten : options.base.toInt ≠ -2 ^ 63)
    (hzero : options.base.toInt ≠ 0)
    (hone : ¬ (Wraps t options.base.toInt ∧ v = 1))
    (hnegated : ¬ (t.signed = true ∧ 32 ≤ t.bits ∧ options.base.toInt = -1
      ∧ v ≤ -t.greatest)) :
    Slip t options matched v
      ↔ Passes t options.base.toInt v
        ∧ ((t.signed = false ∧ t.bits ≤ 32 ∧ matched.toInt = -2 ^ 31)
          ∨ t.Holds (v * options.base.toInt + matched.toInt)
            ∧ MaximumSlips t options
                (v * options.base.toInt + matched.toInt)) := by
  constructor
  · intro h
    cases h with
    | zero hbase => exact absurd hbase hzero
    | unwritten hbase => exact absurd hbase hwritten
    | quotient hsigned hwide hbase hsmall =>
        exact absurd ⟨hsigned, hwide, hbase, hsmall⟩ hnegated
    | product hwraps hv => exact absurd ⟨hwraps, hv⟩ hone
    | difference hpasses hunsigned hnarrow hleast =>
        exact ⟨hpasses, Or.inl ⟨hunsigned, hnarrow, hleast⟩⟩
    | maximum hpasses hsum hmaximum => exact ⟨hpasses, Or.inr ⟨hsum, hmaximum⟩⟩
  · rintro ⟨hpasses, ⟨hunsigned, hnarrow, hleast⟩ | ⟨hsum, hmaximum⟩⟩
    · exact .difference hpasses hunsigned hnarrow hleast
    · exact .maximum hpasses hsum hmaximum

/-- Where the checks of the product let a field pass, the rest of the body
decides. -/
theorem sound_iff_of_passes (hint : property.type.isInteger = true)
    (hlimits : Limits (options.reading property) low high)
    (hv : (options.reading property).Holds v)
    (hu : numberType? options.base.toInt = some u) {checks : List Step}
    (hguards : Guards matched checks (.holding property options.signed v [])
      (.holding property options.signed v [])
      (Passes (options.reading property) options.base.toInt v))
    (hpasses : Passes (options.reading property) options.base.toInt v) :
    Sound property options matched (checks
        ++ .blank :: .assign (fieldOperand property options.signed) .multiply
          (.number options.base)
        :: .blank :: .comment "Addition overflow" :: sumSteps property
          options low high)
        (.holding property options.signed v [])
          (v * options.base.toInt + matched.toInt)
      ↔ ¬ ((options.signed = false ∧ property.type.bits ≤ 32
        ∧ matched.toInt = -2 ^ 31)
        ∨ (options.reading property).Holds
          (v * options.base.toInt + matched.toInt)
          ∧ MaximumSlips (options.reading property) options
            (v * options.base.toInt + matched.toInt)) := by
  have hproduct := hpasses.holds hv
  have hcomputed : ∀ y ∈ ([] ++ [v * options.base.toInt] : List Int),
      (options.reading property).Holds y := fun y hy => by
    rw [List.mem_singleton.mp hy]
    exact hproduct
  rw [← sumSteps_sound_iff hint hlimits hproduct hcomputed]
  unfold Sound
  rw [hguards.passed hpasses]
  show (∃ answer last, run matched (.assign _ _ _ :: _) _ = _ ∧ _) ↔ _
  rw [run_multiply hint hv hu hproduct]
  rfl

/-- The body of a multiply-and-add on an integer field is sound exactly if
nothing slips. -/
theorem mulAddBody_sound_iff (hint : property.type.isInteger = true)
    (hlimits : Limits (options.reading property) low high)
    (hv : (options.reading property).Holds v) :
    Sound property options matched
        (mulAddBody property.type property.name options low high)
        (.start property v) (v * options.base.toInt + matched.toInt)
      ↔ ¬ Slip (options.reading property) options matched v := by
  unfold Sound
  rw [run_mulAddBody hint]
  show Sound property options matched _ _ _ ↔ _
  have hfault : ∀ {fault : Fault},
      (Operand.quotient (.limit high) (.number options.base)).eval
      (.holding property options.signed v []) matched = .error fault →
      ∀ rest, run matched (productChecks property options low high ++ rest)
        (.holding property options.signed v []) = .error fault := fun h rest =>
    run_refuseIf_fault (refusal_fault hint hv h)
  cases hu : numberType? options.base.toInt with
  | none =>
      refine iff_of_false
        (not_sound_of_fault (hfault (eval_quotient_untyped hu) _)) fun h => ?_
      exact h (.unwritten ((numberType?_eq_none _).mp hu))
  | some u =>
      by_cases hzero : options.base.toInt = 0
      · exact iff_of_false
            (not_sound_of_fault (hfault (eval_quotient_zero hzero) _)) fun h =>
          h (.zero hzero)
      by_cases hone : Wraps (options.reading property) options.base.toInt
        ∧ v = 1
      · exact iff_of_false
            (not_sound_of_wraps hint hv hlimits hu hone.1 hone.2) fun h =>
          h (.product hone.1 hone.2)
      by_cases hnegated : options.signed = true ∧ 32 ≤ property.type.bits
          ∧ options.base.toInt = -1
          ∧ v ≤ -(options.reading property).greatest
      · obtain ⟨hsigned, hwide, hbase, hsmall⟩ := hnegated
        exact iff_of_false (not_sound_of_fault
          (run_productChecks_negated hint hv hlimits hu hsigned hwide hbase
              hsmall)) fun h =>
          h (.quotient hsigned hwide hbase hsmall)
      have hguards : Guards matched (productChecks property options low high)
          (.holding property options.signed v [])
          (.holding property options.signed v [])
          (Passes (options.reading property) options.base.toInt v) := by
        by_cases hwraps : Wraps (options.reading property) options.base.toInt
        · exact (guards_productChecks_wraps hint hv hlimits hu hwraps).congr
            (passes_iff_of_wraps hv hwraps fun h => hone ⟨hwraps, h⟩)
        · exact guards_productChecks hint hv hlimits hu hzero hwraps hnegated
      have hwritten : options.base.toInt ≠ -2 ^ 63 := fun hbase =>
        nomatch hu.symm.trans ((numberType?_eq_none _).mpr hbase)
      rw [slip_iff_of_checked hwritten hzero hone hnegated]
      by_cases hpasses : Passes (options.reading property) options.base.toInt v
      · rw [and_iff_right hpasses]
        exact sound_iff_of_passes hint hlimits hv hu hguards hpasses
      · exact iff_of_true
          (sound_of_refused (hguards.refused hpasses _) fun y hy => nomatch hy)
          fun h => hpasses h.1

/-- A multiply-and-add that has a body works on an integer property. -/
theorem parts_of_mulAdd {parser : Parser} {field : String} {body : List Step}
    (h : intrinsicBody parser (.mulAdd field options) = .ok body) :
    ∃ property low high, property ∈ parser.properties ∧ property.name = field
      ∧ property.type.isInteger = true
      ∧ Limits (options.reading property) low high
      ∧ body = mulAddBody property.type property.name options low high := by
  obtain ⟨property, hproperty, hrest⟩ := ok_of_bind h
  obtain ⟨hmem, rfl⟩ := named_of_property hproperty
  cases hlimits : property.type.limits? options.signed with
  | none =>
      rw [hlimits] at hrest
      cases hrest
  | some limits =>
      rw [hlimits] at hrest
      obtain ⟨hint, hfit⟩ := limits_of_limits? hlimits
      exact ⟨property, limits.1, limits.2, hmem, rfl, hint, hfit,
        (Except.ok.inj hrest).symm⟩

variable {parser : Parser} {debugHook headerName : Option String}
  {program : Program} {id : CodeId} {field : String}

/-- Every multiply-and-add of a program is a function on an integer
property. -/
theorem function_of_mulAdd
    (hok : ofParser parser debugHook headerName = .ok program)
    (hid : id ∈ emittedCodes parser)
    (hkind : (parser.machine.code id).kind = .mulAdd field options) :
    ∃ property low high, property ∈ parser.properties ∧ property.name = field
      ∧ property.type.isInteger = true
      ∧ Limits (options.reading property) low high
      ∧ ⟨(parser.machine.code id).name, .value,
          some (mulAddBody property.type property.name options low high)⟩
              ∈ program.functions := by
  obtain ⟨function, hmem, hfunction⟩ :=
    exists_of_mem_left (parts_of_ofParser hok).functions hid
  unfold functionOf Code.signature at hfunction
  rw [hkind] at hfunction
  obtain ⟨body, hbody, hrest⟩ := ok_of_bind hfunction
  obtain rfl := Except.ok.inj hrest
  obtain ⟨property, low, high, hproperty, hname, hint, hlimits, rfl⟩ :=
    parts_of_mulAdd hbody
  exact ⟨property, low, high, hproperty, hname, hint, hlimits, hmem⟩

/-- Every multiply-and-add of a program is a function on an integer property.
Whatever the field holds and whatever the value of the edge, its body is sound
exactly if nothing slips. -/
theorem mulAdd_sound_iff
    (hok : ofParser parser debugHook headerName = .ok program)
    (hid : id ∈ emittedCodes parser)
    (hkind : (parser.machine.code id).kind = .mulAdd field options) :
    ∃ property body, property ∈ parser.properties ∧ property.name = field
      ∧ property.type.isInteger = true
      ∧ ⟨(parser.machine.code id).name, .value, some body⟩ ∈ program.functions
      ∧ ∀ v, (options.reading property).Holds v → ∀ matched : Int32,
        Sound property options matched body (.start property v)
            (v * options.base.toInt + matched.toInt)
          ↔ ¬ Slip (options.reading property) options matched v := by
  obtain ⟨property, low, high, hproperty, hname, hint, hlimits, hmem⟩ :=
    function_of_mulAdd hok hid hkind
  exact ⟨property, _, hproperty, hname, hint, hmem, fun v hv matched =>
    mulAddBody_sound_iff hint hlimits hv⟩

/-- Each byte "a" is a digit one of a count. -/
def counts (options : MulAdd) : Graph :=
  Build.replay [.property .i32 "count", .intrinsic (.mulAdd "count" options),
    .invoke 0,
    .node "next", .select 1 [0x61] 1 0, .skipTo 1 1, .otherwise 0 1] {}

/-- The parser of the counts. -/
def countsParser (options : MulAdd) : Parser where
  symbolPrefix := "p"
  machine.states := #[
    { name := "p__n_next", nodeName := "next", kind := .single
      edges := [⟨some (.byte 0x61), 1, false, some 1⟩]
      otherwise := some (.otherwise 0 false) },
    { name := "p__n_invoke_mul_add_count", nodeName := "invoke_mul_add_count",
      kind := .invoke 0
      otherwise := some (.otherwise 0 true) }]
  machine.codes := #[⟨"p__c_mul_add_count", .mulAdd "count" options⟩]
  root := 0
  properties := [⟨.i32, "count"⟩]
  resumable := [0]

theorem ofGraph_counts (options : MulAdd) :
    Parser.ofGraph (counts options) 1 "p" {} = .ok (countsParser options) := by
  cbv

/-- The counts have a program, with their multiply-and-add. -/
theorem ofParser_counts (options : MulAdd) :
    (∃ program, ofParser (countsParser options) none none = .ok program)
      ∧ 0 ∈ emittedCodes (countsParser options) := by
  have hcodes : emittedCodes (countsParser options) = [0] := by cbv
  have hok : (ofParser (countsParser options) none none).isOk = true := by
    obtain ⟨base, max, signed⟩ := options
    cases signed <;> cbv
  refine ⟨?_, hcodes ▸ List.mem_singleton_self 0⟩
  cases hmade : ofParser (countsParser options) none none with
  | error cause =>
      rw [hmade] at hok
      cases hok
  | ok program => exact ⟨program, rfl⟩

/-- Decimal counts with a sign are sound, whatever they hold. -/
theorem counts_sound : ∃ program property body,
    ofParser (countsParser ⟨10, none, true⟩) none none = .ok program
      ∧ property ∈ (countsParser ⟨10, none, true⟩).properties
      ∧ ⟨"p__c_mul_add_count", .value, some body⟩ ∈ program.functions
      ∧ ∀ v, (MulAdd.reading ⟨10, none, true⟩ property).Holds v →
        ∀ matched : Int32,
        Sound property ⟨10, none, true⟩ matched body (.start property v)
          (v * 10 + matched.toInt) := by
  obtain ⟨⟨program, hok⟩, hid⟩ := ofParser_counts ⟨10, none, true⟩
  obtain ⟨property, body, hproperty, -, -, hmem, hsound⟩ :=
    mulAdd_sound_iff hok hid rfl
  refine ⟨program, property, body, hok, hproperty, hmem, fun v hv matched =>
    (hsound v hv matched).mpr fun hslip => ?_⟩
  have hsigned : (MulAdd.reading ⟨10, none, true⟩ property).signed
    = true := rfl
  cases hslip with
  | zero base => exact absurd base (by decide)
  | unwritten base => exact absurd base (by decide)
  | quotient signed wide base small => exact absurd base (by decide)
  | product wraps one => exact nomatch hsigned.symm.trans wraps.1
  | difference passes unsigned narrow least =>
      exact nomatch hsigned.symm.trans unsigned
  | maximum passes sum maximum =>
      obtain ⟨max, hmax, -⟩ := maximum
      cases hmax

/-- Compilation succeeds where the multiply-and-add divides by zero, whatever
it is called with. -/
theorem accepted_division :
    ∃ g root artifact parser program property body, g.Built
    ∧ Artifact.ofGraph g root "p" {} = .ok artifact
    ∧ Parser.ofGraph g root "p" {} = .ok parser
    ∧ ofParser parser none none = .ok program ∧ property ∈ parser.properties
    ∧ ⟨"p__c_mul_add_count", .value, some body⟩ ∈ program.functions
    ∧ ∀ v, (property.type.reading false).Holds v → ∀ matched,
      run matched body (.start property v) = .error .divisionByZero := by
  obtain ⟨⟨program, hok⟩, hid⟩ := ofParser_counts ⟨0, none, false⟩
  obtain ⟨artifact, hartifact⟩ :=
    Artifact.exists_of_program (by decide) (ofGraph_counts ⟨0, none, false⟩)
      (by rw [hok]; rfl)
  obtain ⟨property, low, high, hproperty, -, hint, -, hmem⟩ :=
    function_of_mulAdd hok hid rfl
  have hbuilt : (counts ⟨0, none, false⟩).Built :=
    Graph.Built.new.replay (by decide +kernel)
  refine ⟨_, 1, artifact, _, program, property, _, hbuilt, hartifact,
    ofGraph_counts _, hok,
    hproperty, hmem, fun v hv matched => ?_⟩
  rw [run_mulAddBody hint]
  exact run_refuseIf_fault (refusal_fault hint hv (eval_quotient_zero rfl))

end Program

end Bytewise

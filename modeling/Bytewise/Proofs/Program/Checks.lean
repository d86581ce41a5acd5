/-
The checks of a multiply-and-add.

Before the product and before the sum a body compares the field with what
the limits leave for it, and after the sum with the maximum. Each of the
three is a guard of the field (`guards_productChecks`, `guards_sumCheck`,
`guards_maximumCheck`), and what passes the first two is computed exactly.
A constant that wraps beside the field and the least value of an edge are
the cases in which a check does not do what it is to do.
-/
import Bytewise.Proofs.Program.Guards

namespace Bytewise

/-- The type that a multiply-and-add reads its field in. -/
abbrev MulAdd.reading (options : MulAdd) (property : Property) : IntType :=
  property.type.reading options.signed

namespace Program

variable {type : FieldType} {signed : Bool} {u t : IntType} {base v : Int}
  {matched : Int32} {property : Property} {options : MulAdd}
  {low high : Literal} {computed : List Int} {rest : List Step}

-- ============================================================ product

/-- What the check of the product lets pass: products that the field can hold,
or, for a negative base, nothing but zero. -/
def Passes (t : IntType) (base v : Int) : Prop :=
  if 0 < base then t.Holds (v * base)
  else v = 0 ∧ (Wraps t base ∨ base < -t.greatest ∧ base < t.least)

/-- What passes the check is a product that the type holds. -/
theorem Passes.holds (h : Passes t base v) (hv : t.Holds v) :
    t.Holds (v * base) := by
  unfold Passes at h
  split at h
  · exact h
  · obtain ⟨rfl, -⟩ := h
    rwa [Int.zero_mul]

/-- A quotient is not positive exactly if the divisor is the greater. -/
private theorem ediv_nonpos_iff {a b : Int} (hb : 0 < b) :
    a / b ≤ 0 ↔ a < b := by
  rw [← Int.lt_add_one_iff, Int.zero_add, Int.ediv_lt_iff_lt_mul hb,
    Int.one_mul]

/-- Comparing the field with the limits divided by the base checks the
product. -/
theorem passes_iff (hv : t.Holds v) (hbase : base ≠ 0)
    (hwraps : ¬ Wraps t base) :
    (v ≤ t.greatest.tdiv base ∧ (t.signed = true → t.least.tdiv base ≤ v))
        ↔ Passes t base v := by
  have hgreatest := t.greatest_nonneg
  have hsucc : 0 ≤ t.greatest + 1 := by omega
  obtain ⟨hlow, -⟩ := hv
  unfold Passes
  rcases Int.lt_or_gt_of_ne hbase with hneg | hpos
  · -- the quotients have opposite signs, so both are zero
    obtain ⟨b, rfl⟩ : ∃ b, base = -b := ⟨-base, (Int.neg_neg base).symm⟩
    have hb : 0 < b := by omega
    have hquotient : 0 ≤ t.greatest / b := Int.ediv_nonneg hgreatest hb.le
    have hzero := ediv_nonpos_iff (a := t.greatest) hb
    rw [if_neg (by omega), Int.tdiv_neg, Int.tdiv_eq_ediv_of_nonneg hgreatest]
    cases hsigned : t.signed with
    | false =>
        rw [IntType.least_of_unsigned hsigned] at hlow ⊢
        simp only [Bool.false_eq_true, false_implies, and_true,
          hwraps, false_or]
        omega
    | true =>
        have hquotient' : 0 ≤ (t.greatest + 1) / b :=
          Int.ediv_nonneg hsucc hb.le
        have hzero' := ediv_nonpos_iff (a := t.greatest + 1) hb
        rw [IntType.least_of_signed hsigned, Int.tdiv_neg,
          Int.neg_tdiv, Int.neg_neg,
          Int.tdiv_eq_ediv_of_nonneg hsucc]
        simp only [true_implies, hwraps, false_or]
        omega
  · rw [if_pos hpos, Int.tdiv_eq_ediv_of_nonneg hgreatest,
      Int.le_ediv_iff_mul_le hpos]
    unfold IntType.Holds
    cases hsigned : t.signed with
    | false =>
        rw [IntType.least_of_unsigned hsigned] at hlow ⊢
        have hproduct : 0 ≤ v * base := Int.mul_nonneg hlow hpos.le
        simp only [Bool.false_eq_true, false_implies, and_true]
        omega
    | true =>
        have hmul := Int.le_ediv_iff_mul_le (a := -v)
          (b := t.greatest + 1) hpos
        rw [Int.neg_mul] at hmul
        rw [IntType.least_of_signed hsigned, Int.neg_tdiv,
          Int.tdiv_eq_ediv_of_nonneg hsucc]
        simp only [true_implies]
        omega

/-- A quotient of a limit and of what a constant becomes beside it. -/
theorem eval_quotient {frame : Frame} {limit : Literal} {number : Int64}
    (hu : numberType? number.toInt = some u) {w : IntType}
    (hw : (limitType limit).join u = w) (hbits : 0 < w.bits)
    (hlimit : w.Holds limit.value) {divisor : Int}
    (hnumber : w.convert number.toInt = divisor) (hzero : divisor ≠ 0)
    (hquotient : w.Holds (limit.value.tdiv divisor)) :
    (Operand.quotient (.limit limit) (.number number)).eval frame matched
      = .ok ⟨w, limit.value.tdiv divisor⟩ := by
  have heval : (Operand.number number).eval frame matched
      = .ok ⟨u, number.toInt⟩ := by
    unfold Operand.eval
    rw [hu]
  show ((Operand.number number).eval frame matched >>= _) = _
  rw [heval]
  show Value.combine divide _ _ = _
  unfold Value.combine divide
  dsimp only
  rw [hw, hlimit.convert hbits, hnumber, if_neg hzero,
    result_of_holds hquotient hbits]
  rfl

/-- The quotients that are compared with the field are numbers of the type that
the limits and the base have in common. The exception is the least number of a
field of 32 or 64 bits, negated. -/
theorem quotients_held (hu : numberType? base = some u)
    (hwraps : ¬ Wraps (type.reading signed) base) :
    ((type.reading signed).promote.join u).Holds
      ((type.reading signed).greatest.tdiv base)
      ∧ (signed = true → ¬ (32 ≤ type.bits ∧ base = -1) →
        ((type.reading signed).promote.join u).Holds
            ((type.reading signed).least.tdiv base)) := by
  generalize ht : type.reading signed = t at *
  obtain ⟨-, husigned, -⟩ := numberType?_holds hu
  have hgreatest := t.greatest_nonneg
  have hleast := t.least_nonpos
  have hholds : ∀ x, t.least ≤ x → x ≤ t.greatest →
      (t.promote.join u).Holds x :=
    fun x hleast hle => IntType.Holds.beside ⟨hleast, hle⟩ husigned
  refine ⟨?_, fun hsigned hnot => ?_⟩
  · have hle := Int.natAbs_tdiv_le_natAbs t.greatest base
    refine (t.holds_greatest.beside husigned).between (by omega) ?_
    rcases lt_or_ge base 0 with hneg | hpos
    · refine Or.inr (Bool.of_not_eq_false fun hunsigned => hwraps ?_)
      subst ht
      exact (wraps_iff hu).mpr ⟨hneg, hunsigned⟩
    · exact Or.inl (Int.tdiv_nonneg hgreatest hpos)
  · have hsigned' : t.signed = true := by rw [← ht]; exact hsigned
    have hpos : 0 ≤ t.greatest + 1 := by omega
    rw [IntType.least_of_signed hsigned', Int.neg_tdiv]
    rcases lt_or_ge base 0 with hneg | hbase
    · by_cases hone : base = -1
      · -- the negated least number fits an `int`, if the field is narrower
        have hnarrow : ¬ 32 ≤ type.bits := fun h => hnot ⟨h, hone⟩
        obtain rfl : u = .int := by
          rw [hone] at hu
          exact (Option.some.inj hu).symm
        subst hone ht hsigned
        cases type with
        | i8 => decide
        | i16 => decide
        | _ => exact absurd (by decide) hnarrow
      · have hhalf : ((t.greatest + 1).tdiv base).natAbs
            ≤ (t.greatest + 1).natAbs / 2 := by
          rw [Int.natAbs_tdiv]
          exact Nat.div_le_div_left (by omega) (by decide)
        have hsign : (t.greatest + 1).tdiv base ≤ 0 :=
          Int.tdiv_nonpos_of_nonneg_of_nonpos hpos hneg.le
        refine hholds _ (by omega) (by omega)
    · have hle := Int.natAbs_tdiv_le_natAbs (t.greatest + 1) base
      have hsign := Int.tdiv_nonneg hpos hbase
      rw [IntType.least_of_signed hsigned'] at hholds
      exact hholds _ (by omega) (by omega)

/-- The check of the product against a limit. -/
def quotientCheck (property : Property) (options : MulAdd) (greater : Bool)
    (limit : Literal) :
    Refusal :=
  ⟨fieldOperand property options.signed, greater, .quotient (.limit limit)
    (.number options.base)⟩

/-- The field is compared with a quotient, if the type that the limit and the
base have in common holds it. -/
theorem quotientCheck_applies (hint : property.type.isInteger = true)
    (hv : (options.reading property).Holds v)
    (hu : numberType? options.base.toInt = some u)
    (hzero : options.base.toInt ≠ 0)
    (hwraps : ¬ Wraps (options.reading property) options.base.toInt)
    (greater : Bool) {limit : Literal}
    (htype : limitType limit = (options.reading property).promote)
    (hlimit : (options.reading property).Holds limit.value)
    (hquotient : ((options.reading property).promote.join u).Holds
      (limit.value.tdiv options.base.toInt)) :
    (quotientCheck property options greater limit).applies
        (.holding property options.signed v computed) matched
      = .ok (if greater then limit.value.tdiv options.base.toInt < v
          else v < limit.value.tdiv options.base.toInt) := by
  have husigned := (numberType?_holds hu).2.1
  have hbits := bits_beside hu (options.reading property).promote
  have hconvert := (number_beside hu hwraps).convert hbits
  have heval :=
    @eval_quotient u matched (.holding property options.signed v computed)
      limit
    options.base hu _ (by rw [htype]) hbits (hlimit.beside husigned) _ hconvert
      hzero hquotient
  exact applies_exact hint hv greater heval (IntType.join_join _ _) hbits
    (hv.beside husigned)
    hquotient

/-- Where the product is checked. -/
def productChecks (property : Property) (options : MulAdd)
    (low high : Literal) : List Step :=
  [.comment "Multiplication overflow",
    .refuseIf (quotientCheck property options true high)]
  ++ if options.signed then
    [.refuseIf (quotientCheck property options false low)] else []

/-- The upper check of a product guards its bound. -/
theorem guards_upper (hint : property.type.isInteger = true)
    (hv : (options.reading property).Holds v)
    (hlimits : Limits (options.reading property) low high)
    (hu : numberType? options.base.toInt = some u)
    (hzero : options.base.toInt ≠ 0)
    (hwraps : ¬ Wraps (options.reading property) options.base.toInt) :
    Guards matched [.refuseIf (quotientCheck property options true high)]
      (.holding property options.signed v computed)
      (.holding property options.signed v computed)
      (v ≤ (options.reading property).greatest.tdiv options.base.toInt) := by
  have hquotient := (quotients_held hu hwraps).1
  have hhigh := (options.reading property).holds_greatest
  rw [← hlimits.greatest] at hquotient hhigh ⊢
  refine (Guards.refuseIf
    (quotientCheck_applies hint hv hu hzero hwraps true hlimits.highType hhigh
    hquotient)).congr ?_
  rw [if_pos rfl, decide_eq_false_iff_not, Int.not_lt]

theorem guards_lower (hint : property.type.isInteger = true)
    (hv : (options.reading property).Holds v)
    (hlimits : Limits (options.reading property) low high)
    (hu : numberType? options.base.toInt = some u)
    (hzero : options.base.toInt ≠ 0)
    (hwraps : ¬ Wraps (options.reading property) options.base.toInt)
    (hsigned : options.signed = true)
    (hnegated : ¬ (32 ≤ property.type.bits ∧ options.base.toInt = -1)) :
    Guards matched [.refuseIf (quotientCheck property options false low)]
      (.holding property options.signed v computed)
      (.holding property options.signed v computed)
      ((options.reading property).least.tdiv options.base.toInt ≤ v) := by
  have hquotient := (quotients_held hu hwraps).2 hsigned hnegated
  have hlow := (options.reading property).holds_least
  rw [← hlimits.least] at hquotient hlow ⊢
  refine (Guards.refuseIf (quotientCheck_applies hint hv hu hzero hwraps false
    (hlimits.lowType_of_signed hsigned) hlow hquotient)).congr ?_
  rw [if_neg Bool.false_ne_true, decide_eq_false_iff_not, Int.not_lt]

/-- With a base that keeps its sign, the checks of the product do what they are
to do, unless the least number of a signed field is divided by minus one. -/
theorem guards_productChecks (hint : property.type.isInteger = true)
    (hv : (options.reading property).Holds v)
    (hlimits : Limits (options.reading property) low high)
    (hu : numberType? options.base.toInt = some u)
    (hzero : options.base.toInt ≠ 0)
    (hwraps : ¬ Wraps (options.reading property) options.base.toInt)
    (hnegated : ¬ (options.signed = true ∧ 32 ≤ property.type.bits
      ∧ options.base.toInt = -1
      ∧ v ≤ -(options.reading property).greatest)) :
    Guards matched (productChecks property options low high)
      (.holding property options.signed v computed)
      (.holding property options.signed v computed)
      (Passes (options.reading property) options.base.toInt v) := by
  have hupper := @guards_upper u v matched property options low high computed
    hint hv hlimits hu
    hzero hwraps
  have hlower := fun hsigned hnot => @guards_lower u v matched property options
    low high computed
    hint hv hlimits hu hzero hwraps hsigned hnot
  refine Guards.congr ?_ (passes_iff hv hzero hwraps)
  unfold productChecks
  cases hsigned : options.signed with
  | false =>
      rw [hsigned] at hupper
      refine ((hupper.comment _).append fun _ => .nil).congr
        (and_congr_right fun _ => ?_)
      exact ⟨fun _ h => absurd (hsigned.symm.trans h) Bool.false_ne_true,
        fun _ => trivial⟩
  | true =>
      rw [hsigned] at hupper hlower hnegated
      refine ((hupper.comment _).append fun hle => hlower rfl ?_).congr
        (and_congr_right fun _ => ⟨fun h _ => h, fun h => h hsigned⟩)
      rintro ⟨hwide, hone⟩
      rw [hone, Int.tdiv_neg, Int.tdiv_one] at hle
      exact hnegated ⟨rfl, hwide, hone, hle⟩

/-- A base that wraps is more than half of the greatest number, so the check
lets zero and one pass. -/
theorem guards_productChecks_wraps (hint : property.type.isInteger = true)
    (hv : (options.reading property).Holds v)
    (hlimits : Limits (options.reading property) low high)
    (hu : numberType? options.base.toInt = some u)
    (hwraps : Wraps (options.reading property) options.base.toInt) :
    Guards matched (productChecks property options low high)
      (.holding property options.signed v computed)
      (.holding property options.signed v computed)
      (v ≤ 1) := by
  obtain ⟨hjoin, hpromote, hconvert, hhalf⟩ := convert_of_wraps hu hwraps
  obtain ⟨hunsigned, hneg, -⟩ := hwraps
  have hbits : 0 < (options.reading property).bits := property.type.bits_pos
  have hgreatest := (options.reading property).greatest_nonneg
  have hle : options.base.toInt + 2 ^ property.type.bits
      ≤ (options.reading property).greatest := by
    have heq : (options.reading property).greatest = 2 ^ property.type.bits
        - 1 := by
      unfold IntType.greatest
      rw [if_neg (Bool.eq_false_iff.mp hunsigned)]
      rfl
    omega
  rw [← hlimits.greatest] at hgreatest hle hhalf
  generalize options.base.toInt + 2 ^ property.type.bits
    = divisor at hconvert hhalf hle
  have hone : high.value.tdiv divisor = 1 := by
    rw [Int.tdiv_eq_ediv_of_nonneg hgreatest]
    refine le_antisymm (Int.lt_add_one_iff.mp ?_) ?_
    · rw [Int.ediv_lt_iff_lt_mul (by omega)]
      omega
    · rw [Int.le_ediv_iff_mul_le (by omega)]
      omega
  have hheld : (options.reading property).Holds 1 := by
    refine ⟨(IntType.least_nonpos _).trans (by decide), ?_⟩
    rw [← hlimits.greatest]
    omega
  have hquotient : (Operand.quotient (.limit high) (.number options.base)).eval
      (.holding property options.signed v computed) matched
        = .ok ⟨options.reading property, 1⟩ := by
    have hhigh : (options.reading property).Holds high.value :=
      hlimits.greatest ▸ IntType.holds_greatest _
    rw [← hone]
    refine eval_quotient hu ?_ hbits hhigh hconvert (by omega)
      (hone.symm ▸ hheld)
    rw [hlimits.highType, hjoin]
  have hself : (options.reading property).promote.join
      (options.reading property)
      = options.reading property := by
    rw [show (options.reading property).promote = options.reading property
      from hpromote]
    exact IntType.join_self _
  have hupper : Guards matched
      [.refuseIf (quotientCheck property options true high)]
      (.holding property options.signed v computed)
      (.holding property options.signed v computed) (v ≤ 1) := by
    refine (Guards.refuseIf
      (applies_exact hint hv true hquotient hself hbits hv hheld)).congr ?_
    rw [if_pos rfl, decide_eq_false_iff_not, Int.not_lt]
  unfold productChecks
  rw [show options.signed = false from hunsigned] at hupper ⊢
  exact ((hupper.comment _).append fun _ => .nil).congr (and_iff_left trivial)

/-- The product of a field that passes the check is computed exactly. -/
theorem run_multiply (hint : property.type.isInteger = true)
    (hv : (options.reading property).Holds v)
    (hu : numberType? options.base.toInt = some u)
    (hproduct : (options.reading property).Holds (v * options.base.toInt)) :
    run matched (.assign (fieldOperand property options.signed) .multiply
        (.number options.base)
        :: rest) (.holding property options.signed v computed)
      = run matched rest
          (.holding property options.signed (v * options.base.toInt)
          (computed ++ [v * options.base.toInt])) := by
  have husigned := (numberType?_holds hu).2.1
  have hnumber : (Operand.number options.base).eval
      (.holding property options.signed v computed) matched
          = .ok ⟨u, options.base.toInt⟩ := by
    unfold Operand.eval
    rw [hu]
  have happly : Assignment.apply ⟨(options.reading property).promote, v⟩
      ⟨u, options.base.toInt⟩ .multiply = .ok ⟨_, v * options.base.toInt⟩ :=
    combine_exact (fun x y n => (Int.mul_emod x y _).symm) rfl
      (bits_beside hu _)
      (hproduct.beside husigned) fun hsigned =>
          ⟨hv.beside husigned, number_beside hu fun hwraps =>
        absurd (hsigned.symm.trans ((wraps_iff hu).mp hwraps).2) (by decide)⟩
  exact run_assign hint hv hnumber happly rfl

/-- A product in a type without a sign goes on the account, whatever becomes of
it. -/
theorem run_multiply_wraps (hint : property.type.isInteger = true)
    (hv : (options.reading property).Holds v)
    (hu : numberType? options.base.toInt = some u)
    (hwraps : Wraps (options.reading property) options.base.toInt) :
    ∃ x, run matched (.assign (fieldOperand property options.signed) .multiply
        (.number options.base) :: rest)
        (.holding property options.signed v computed)
      = run matched rest (.holding property options.signed x
          (computed ++ [v * options.base.toInt])) := by
  have hnumber : (Operand.number options.base).eval
      (.holding property options.signed v computed) matched
          = .ok ⟨u, options.base.toInt⟩ := by
    unfold Operand.eval
    rw [hu]
  obtain ⟨new, happly⟩ : ∃ new, Assignment.apply
      ⟨(options.reading property).promote, v⟩ ⟨u, options.base.toInt⟩ .multiply
        = .ok new :=
    combine_unsigned ((wraps_iff hu).mp hwraps).2
  exact ⟨new.number, run_assign hint hv hnumber happly rfl⟩

-- ================================================================ sum

/-- What the edge's value leaves of the limits is computed without fault,
except where the least value is taken from a zero that is an `int`. -/
theorem differences_held (matched : Int32)
    (hlimits : Limits (type.reading signed) low high) :
    (0 ≤ matched.toInt →
        (type.reading signed).promote.Holds
        ((type.reading signed).greatest - matched.toInt))
      ∧ (matched.toInt < 0 →
        ¬ (signed = false ∧ type.bits ≤ 32 ∧ matched.toInt = -2 ^ 31) →
        ((limitType low).join .int).Holds
          ((type.reading signed).least - matched.toInt)
          ∧ (type.reading signed).promote.Holds
              ((type.reading signed).least - matched.toInt)) := by
  have hlow := hlimits.lowType
  have hmin := matched.le_toInt
  have hmax := matched.toInt_lt
  rw [hlow]
  cases type <;> cases signed <;>
    simp [FieldType.reading, FieldType.bits, IntType.promote,
      IntType.join, IntType.int,
      IntType.Holds, IntType.least, IntType.greatest] <;>
    omega

/-- The type of the lower limit holds it. -/
theorem Limits.low_held (h : Limits t low high) :
    (limitType low).Holds low.value := by
  rw [h.lowType, h.least]
  split
  · rename_i heq
    rw [heq]
    decide
  · exact (IntType.holds_least t).promote

/-- Beside the lower limit and an `int`, the field keeps its type. -/
theorem Limits.join_low (h : Limits (type.reading signed) low high) :
    (type.reading signed).promote.join ((limitType low).join .int)
      = (type.reading signed).promote := by
  rw [h.lowType]
  cases type <;> cases signed <;> rfl

/-- The edge's value in a type with a sign that an `int` is computed in. -/
theorem matched_beside (matched : Int32)
    (hsigned : (u.join .int).signed = true) :
    (u.join .int).Holds matched.toInt := by
  have hint : IntType.int.Holds matched.toInt :=
    ⟨matched.le_toInt, Int.le_of_lt_add_one matched.toInt_lt⟩
  rw [IntType.join_comm] at hsigned ⊢
  exact hint.join u (Or.inr hsigned)

/-- Joined with `int`, any type has bits. -/
theorem bits_join_int (u : IntType) : 0 < (u.join .int).bits := by
  have hle := IntType.le_bits_join .int u
  rw [IntType.join_comm] at hle
  exact Nat.lt_of_lt_of_le (by decide) hle

/-- A limit less the value is what it says, if the type holds it. -/
theorem eval_difference {frame : Frame} {limit : Literal} {w : IntType}
    (hw : (limitType limit).join .int = w)
    (hresult : w.Holds (limit.value - matched.toInt))
    (hlimit : w.signed = true → w.Holds limit.value) :
    (Operand.difference (.limit limit) .matched).eval frame matched
      = .ok ⟨w, limit.value - matched.toInt⟩ := by
  subst hw
  exact combine_exact (v := ⟨limitType limit, limit.value⟩)
    (w := ⟨.int, matched.toInt⟩)
    (fun x y n => (Int.sub_emod x y _).symm) rfl (bits_join_int _) hresult
    fun hsigned => ⟨hlimit hsigned, matched_beside matched hsigned⟩

/-- The check of the sum does what it is to do, but for one value of the
edge. -/
theorem guards_sumCheck (hint : property.type.isInteger = true)
    (hv : (options.reading property).Holds v)
    (hlimits : Limits (options.reading property) low high)
    (hnot : ¬ (options.signed = false ∧ property.type.bits ≤ 32
      ∧ matched.toInt = -2 ^ 31)) :
    Guards matched
      [.refuseBySign
        ⟨fieldOperand property options.signed, true,
          .difference (.limit high) .matched⟩
        ⟨fieldOperand property options.signed, false,
          .difference (.limit low) .matched⟩]
      (.holding property options.signed v computed)
        (.holding property options.signed v computed)
      ((options.reading property).Holds (v + matched.toInt)) := by
  obtain ⟨hnonneg, hneg⟩ := differences_held matched hlimits
  have hbits : 0 < (options.reading property).promote.bits := by
    rw [← join_int]
    exact bits_join_int _
  have hself := IntType.join_self (options.reading property).promote
  have hsum : (options.reading property).least ≤ v
      ∧ v ≤ (options.reading property).greatest := hv
  by_cases hsign : 0 ≤ matched.toInt
  · have hheld : (options.reading property).promote.Holds
        (high.value - matched.toInt) := by
      rw [hlimits.greatest]
      exact hnonneg hsign
    have heval :=
      @eval_difference matched (.holding property options.signed v computed)
        high _
      (by rw [hlimits.highType, join_int]) hheld
      fun _ => by
        rw [hlimits.greatest]; exact (IntType.holds_greatest _).promote
    have happlies :=
      applies_exact hint hv true heval hself hbits hv.promote hheld
    refine (Guards.refuseBySign (by rw [if_pos hsign]; exact happlies)).congr
      ?_
    dsimp only
    rw [if_pos rfl, decide_eq_false_iff_not, hlimits.greatest]
    unfold IntType.Holds
    omega
  · obtain ⟨hresult, hheld⟩ := hneg (by omega) hnot
    rw [← hlimits.least] at hresult hheld
    have heval :=
      @eval_difference matched (.holding property options.signed v computed)
        low _ rfl
      hresult fun hsigned => hlimits.low_held.join .int (Or.inr hsigned)
    have happlies := applies_exact hint hv false heval hlimits.join_low hbits
      hv.promote hheld
    refine (Guards.refuseBySign (by rw [if_neg hsign]; exact happlies)).congr
      ?_
    dsimp only
    rw [if_neg Bool.false_ne_true, decide_eq_false_iff_not, hlimits.least]
    unfold IntType.Holds
    omega

/-- A sum that passes the check is computed exactly. -/
theorem run_add (hint : property.type.isInteger = true)
    (hv : (options.reading property).Holds v)
    (hsum : (options.reading property).Holds (v + matched.toInt)) :
    run matched
        (.assign (fieldOperand property options.signed) .add .matched :: rest)
        (.holding property options.signed v computed)
      = run matched rest (.holding property options.signed (v + matched.toInt)
          (computed ++ [v + matched.toInt])) := by
  have happly : Assignment.apply ⟨(options.reading property).promote, v⟩
      ⟨.int, matched.toInt⟩ .add = .ok ⟨_, v + matched.toInt⟩ :=
    combine_exact (fun x y n => (Int.add_emod x y _).symm) join_int
      (join_int ▸ bits_join_int _)
      hsum.promote fun hsigned => ⟨hv.promote, by
        rw [← join_int] at hsigned ⊢
        exact matched_beside matched hsigned⟩
  exact run_assign hint hv rfl happly rfl

-- ============================================================ maximum

/-- Where the maximum is enforced. -/
def maximumCheck (property : Property) (options : MulAdd) : List Step :=
  match options.max with
  | some max => [.blank, .comment "Enforce maximum",
      .refuseIf ⟨fieldOperand property options.signed, true, .number max⟩]
  | none => []

/-- A maximum that wraps is a great one. -/
theorem guards_maximumCheck (hint : property.type.isInteger = true)
    (hv : (options.reading property).Holds v)
    (htyped : ∀ max, options.max = some max →
      ∃ u, numberType? max.toInt = some u) :
    Guards matched (maximumCheck property options)
      (.holding property options.signed v computed)
      (.holding property options.signed v computed)
      (∀ max, options.max = some max →
        v ≤ max.toInt ∨ Wraps (options.reading property) max.toInt
          ∧ v ≤ max.toInt + 2 ^ property.type.bits) := by
  unfold maximumCheck
  cases hmax : options.max with
  | none =>
      exact Guards.nil.congr
        ⟨fun _ max h => absurd h (by simp), fun _ => trivial⟩
  | some max =>
      obtain ⟨u, hu⟩ := htyped max hmax
      have heval : (Operand.number max).eval
          (.holding property options.signed v computed) matched
          = .ok ⟨u, max.toInt⟩ := by
        unfold Operand.eval
        rw [hu]
      have husigned := (numberType?_holds hu).2.1
      have hsome : ∀ {p : Int64 → Prop}, p max ↔ ∀ max', some max = some max' →
          p max' :=
        ⟨fun h max' heq => Option.some.inj heq ▸ h, fun h => h max rfl⟩
      refine Guards.congr ?_ hsome
      by_cases hwraps : Wraps (options.reading property) max.toInt
      · obtain ⟨hjoin, -, hconvert, -⟩ := convert_of_wraps hu hwraps
        have happlies := applies_field hint hv true heval
        unfold Value.compare at happlies
        dsimp only at happlies
        rw [hjoin, hconvert, hv.convert property.type.bits_pos] at happlies
        refine .blank (.comment _ ((Guards.refuseIf happlies).congr ?_))
        have hneg := hwraps.2.1
        have hnonneg : 0 ≤ v := IntType.least_of_unsigned hwraps.1 ▸ hv.1
        show _ ↔ v ≤ max.toInt ∨ Wraps _ _
          ∧ v ≤ max.toInt + 2 ^ property.type.bits
        rw [if_pos rfl, decide_eq_false_iff_not, Int.not_lt]
        exact ⟨fun h => Or.inr ⟨hwraps, h⟩, fun h =>
          h.elim (by omega) And.right⟩
      · have happlies :=
          applies_exact hint hv true heval rfl (bits_beside hu _)
          (hv.beside husigned) (number_beside hu hwraps)
        refine .blank (.comment _ ((Guards.refuseIf happlies).congr ?_))
        rw [if_pos rfl, decide_eq_false_iff_not, Int.not_lt]
        exact ⟨Or.inl, fun h => h.resolve_right fun h => hwraps h.1⟩

end Program

end Bytewise

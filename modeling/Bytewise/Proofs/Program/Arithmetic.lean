/-
What the functions of intrinsics compute.

Their bodies are read as C reads them. Operands narrower than `int` become
`int`, the two sides of an operator are brought to one type, division
truncates, unsigned results wrap, and a signed result that does not fit, a
division by zero or a constant without a type leave a body without a
meaning (`Fault`). `run` is a body read so, on the bits of one field and
the value of the edge; it keeps an account of the products and sums that
are put into the field, as numbers.
-/
import Mathlib.Algebra.Order.Ring.Int
import Bytewise.Program.Intrinsic
import Bytewise.Proofs.Except

namespace Bytewise

-- ============================================================== types

/-- An integer type of C. -/
structure IntType where
  bits : Nat
  signed : Bool
deriving DecidableEq, Repr

namespace IntType

/-- The type of most constants, and of return codes. -/
def int : IntType := ⟨32, true⟩

def least (t : IntType) : Int :=
  if t.signed then -2 ^ (t.bits - 1) else 0

def greatest (t : IntType) : Int :=
  if t.signed then 2 ^ (t.bits - 1) - 1 else 2 ^ t.bits - 1

/-- The number is one of the type. -/
def Holds (t : IntType) (x : Int) : Prop :=
  t.least ≤ x ∧ x ≤ t.greatest

instance (t : IntType) (x : Int) : Decidable (t.Holds x) :=
  inferInstanceAs (Decidable (_ ∧ _))

/-- What an operand of the type is computed in. -/
def promote (t : IntType) : IntType :=
  if t.bits < 32 then int else t

/-- What operands of two types are computed in: the wider one, and without a
sign if one of equal width has none. -/
def join (t u : IntType) : IntType :=
  if t.bits = u.bits then ⟨t.bits, t.signed && u.signed⟩
  else if t.bits < u.bits then u else t

/-- What becomes of a number that is brought to the type. -/
def convert (t : IntType) (x : Int) : Int :=
  if t.signed then x.bmod (2 ^ t.bits) else x % 2 ^ t.bits

variable {t u : IntType} {x : Int}

/-- A power of two is twice the one before. -/
theorem two_pow_pred {n : Nat} (h : 0 < n) :
    (2 : Int) ^ n = 2 * 2 ^ (n - 1) := by
  rw [← pow_succ', Nat.sub_add_cancel h]

/-- The greatest number of a type is not negative. -/
theorem greatest_nonneg (t : IntType) : 0 ≤ t.greatest := by
  have hpow : ∀ n : Nat, (0 : Int) < 2 ^ n := fun n => pow_pos (by decide) n
  unfold greatest
  split
  · exact Int.sub_nonneg_of_le (hpow _)
  · exact Int.sub_nonneg_of_le (hpow _)

/-- The least number of a signed type is one further from zero than the
greatest. -/
theorem least_of_signed (h : t.signed = true) :
    t.least = -(t.greatest + 1) := by
  unfold least greatest
  rw [if_pos h, if_pos h]
  omega

/-- The least number of an unsigned type is zero. -/
theorem least_of_unsigned (h : t.signed = false) : t.least = 0 := by
  unfold least
  rw [if_neg (Bool.eq_false_iff.mp h)]

/-- The least number of a type is not positive. -/
theorem least_nonpos (t : IntType) : t.least ≤ 0 := by
  cases hsigned : t.signed with
  | false => exact (least_of_unsigned hsigned).le
  | true =>
      have hgreatest := t.greatest_nonneg
      rw [least_of_signed hsigned]
      omega

theorem holds_least (t : IntType) : t.Holds t.least :=
  ⟨le_refl _, t.least_nonpos.trans t.greatest_nonneg⟩

/-- A type holds its greatest number. -/
theorem holds_greatest (t : IntType) : t.Holds t.greatest :=
  ⟨t.least_nonpos.trans t.greatest_nonneg, le_refl _⟩

/-- What a type holds is not changed by bringing it there. -/
theorem Holds.convert (h : t.Holds x) (hbits : 0 < t.bits) :
    t.convert x = x := by
  have hpow := two_pow_pred hbits
  obtain ⟨hleast, hgreatest⟩ := h
  unfold least greatest at *
  unfold IntType.convert
  cases hsigned : t.signed with
  | false =>
      simp only [hsigned, Bool.false_eq_true, if_false] at *
      exact Int.emod_eq_of_lt hleast (by omega)
  | true =>
      simp only [hsigned, if_true] at *
      refine Int.bmod_eq_of_le ?_ ?_ <;> push_cast <;> omega

/-- Whatever sign the bits of a number are read with, they are the bits of that
number. -/
theorem convert_convert (signed : Bool) :
    (IntType.mk t.bits signed).convert ((IntType.mk t.bits false).convert x)
      = (IntType.mk t.bits signed).convert x := by
  unfold IntType.convert
  cases signed with
  | false => exact Int.emod_emod_of_dvd x (dvd_refl _)
  | true =>
      have := Int.emod_bmod x (2 ^ t.bits)
      push_cast at this
      exact this

/-- What a type holds, a wider one holds as well: if it has a sign, or the
number needs none. -/
theorem Holds.widen (h : t.Holds x) (hbits : t.bits ≤ u.bits)
    (hsigned : u.signed = true → t.signed = true ∨ t.bits < u.bits)
    (hx : 0 ≤ x ∨ u.signed = true) : u.Holds x := by
  have hpow : ∀ {m n : Nat}, m ≤ n → (2 : Int) ^ m ≤ 2 ^ n := fun hmn =>
    pow_le_pow_right₀ (by decide) hmn
  have hpred : (2 : Int) ^ (t.bits - 1) ≤ 2 ^ (u.bits - 1) :=
    hpow (Nat.sub_le_sub_right hbits 1)
  have hsame : (2 : Int) ^ t.bits ≤ 2 ^ u.bits := hpow hbits
  have hhalf : (2 : Int) ^ (t.bits - 1) ≤ 2 ^ t.bits := hpow (Nat.sub_le _ _)
  have hpos : (0 : Int) < 2 ^ (u.bits - 1) := pow_pos (by decide) _
  obtain ⟨hleast, hgreatest⟩ := h
  unfold Holds least greatest at *
  cases hu : u.signed with
  | false =>
      simp only [hu, Bool.false_eq_true, if_false, or_false] at *
      refine ⟨hx, ?_⟩
      split at hgreatest <;> omega
  | true =>
      simp only [hu, if_true] at *
      cases ht : t.signed with
      | true =>
          simp only [ht, if_true] at *
          omega
      | false =>
          simp only [ht, Bool.false_eq_true, if_false, false_or, forall_const]
            at *
          have hless : (2 : Int) ^ t.bits ≤ 2 ^ (u.bits - 1) := hpow (by omega)
          omega

/-- What a type holds, it holds when promoted. -/
theorem Holds.promote (h : t.Holds x) : t.promote.Holds x := by
  unfold IntType.promote
  split
  · rename_i hnarrow
    exact h.widen (Nat.le_of_lt hnarrow) (fun _ => Or.inr hnarrow) (Or.inr rfl)
  · exact h

/-- What lies between a number of a type and its opposite is a number of the
type, if the type has a sign or the number needs none. -/
theorem Holds.between {y : Int} (h : t.Holds y) (hx : -y ≤ x ∧ x ≤ y)
    (hsign : 0 ≤ x ∨ t.signed = true) : t.Holds x := by
  obtain ⟨-, hgreatest⟩ := h
  refine ⟨?_, hx.2.trans hgreatest⟩
  cases hsigned : t.signed with
  | false =>
      rw [least_of_unsigned hsigned]
      exact hsign.resolve_right (Bool.eq_false_iff.mp hsigned)
  | true =>
      rw [least_of_signed hsigned]
      omega

theorem le_bits_join (t u : IntType) : t.bits ≤ (t.join u).bits := by
  unfold join
  split
  · exact Nat.le_refl _
  · split <;> omega

/-- A type joined with itself is itself. -/
theorem join_self (t : IntType) : t.join t = t := by
  unfold join
  rw [if_pos rfl, Bool.and_self]

/-- Joining once more makes no difference. -/
theorem join_join (t u : IntType) : t.join (t.join u) = t.join u := by
  by_cases hbits : t.bits = u.bits
  · unfold join
    rw [if_pos hbits, if_pos rfl, ← Bool.and_assoc, Bool.and_self]
  · by_cases hlt : t.bits < u.bits
    · have hjoin : t.join u = u := by
        unfold join
        rw [if_neg hbits, if_pos hlt]
      rw [hjoin, hjoin]
    · have hjoin : t.join u = t := by
        unfold join
        rw [if_neg hbits, if_neg hlt]
      rw [hjoin, join_self]

/-- Types with a sign have one with a sign in common. -/
theorem signed_join (ht : t.signed = true) (hu : u.signed = true) :
    (t.join u).signed = true := by
  unfold join
  split
  · exact Bool.and_eq_true_iff.mpr ⟨ht, hu⟩
  · split
    · exact hu
    · exact ht

/-- Promotion keeps a signed type signed. -/
theorem signed_promote (h : t.signed = true) : t.promote.signed = true := by
  unfold promote
  split
  · rfl
  · exact h

/-- It does not matter which of two types is joined with which. -/
theorem join_comm (t u : IntType) : t.join u = u.join t := by
  unfold join
  rcases Nat.lt_trichotomy t.bits u.bits with hlt | heq | hlt
  · rw [if_neg hlt.ne, if_pos hlt, if_neg hlt.ne', if_neg hlt.not_gt]
  · rw [if_pos heq, if_pos heq.symm, heq, Bool.and_comm]
  · rw [if_neg hlt.ne', if_neg hlt.not_gt, if_neg hlt.ne, if_pos hlt]

/-- What one side of an operator holds, is held by the type of both: if that
has a sign, or the number needs none. -/
theorem Holds.join (h : t.Holds x) (u : IntType)
    (hx : 0 ≤ x ∨ (t.join u).signed = true) :
    (t.join u).Holds x := by
  refine h.widen (le_bits_join t u) ?_ hx
  unfold IntType.join
  split
  · exact fun hboth => Or.inl (Bool.and_eq_true_iff.mp hboth).1
  · split
    · exact fun _ => Or.inr ‹_›
    · exact Or.inl

/-- A field is computed with a constant in a type that holds the field. -/
theorem Holds.beside (h : t.Holds x) (hu : u.signed = true) :
    (t.promote.join u).Holds x := by
  refine h.promote.join u ?_
  cases hsigned : t.signed with
  | true => exact Or.inr (signed_join (signed_promote hsigned) hu)
  | false => exact Or.inl (least_of_unsigned hsigned ▸ h.1)

end IntType

namespace FieldType

/-- The width of a field. -/
def bits : FieldType → Nat
  | i8 => 8
  | i16 => 16
  | i32 => 32
  | i64 | ptr => 64

theorem bits_pos (type : FieldType) : 0 < type.bits := by
  cases type <;> decide

/-- An integer has a signed type of its width. -/
theorem exists_signed {type : FieldType} (h : type.isInteger = true) :
    ∃ signed, type.signed? = some signed := by
  cases type with
  | ptr => cases h
  | _ => exact ⟨_, rfl⟩

/-- The type of a field that is read with the given sign. -/
def reading (type : FieldType) (signed : Bool) : IntType :=
  ⟨type.bits, signed⟩

end FieldType

namespace Program

-- ========================================================= operations

/-- Why C gives a body no meaning. -/
inductive Fault where
  | divisionByZero
  /-- A signed result does not fit its type. -/
  | overflow
  /-- A constant fits no type. -/
  | untyped
  /-- A pointer where an integer is wanted. -/
  | pointer
  /-- A name that is not declared. -/
  | unbound
  /-- A function that ends without an answer. -/
  | unanswered
deriving DecidableEq, Repr

/-- What is computed in a type: it has to fit a signed one, and wraps in one
without a sign. -/
def result (t : IntType) (x : Int) : Except Fault Int :=
  if t.signed = true ∧ ¬ t.Holds x then .error .overflow else .ok (t.convert x)

/-- The bits of two numbers combined. -/
def bitwise (op : Nat → Nat → Nat) (t : IntType) (x y : Int) :
    Except Fault Int :=
  .ok (t.convert (op (x % 2 ^ t.bits).toNat (y % 2 ^ t.bits).toNat))

/-- The quotient, rounded towards zero. -/
def divide (t : IntType) (x y : Int) : Except Fault Int :=
  if y = 0 then .error .divisionByZero else result t (x.tdiv y)

/-- A number of a type. -/
structure Value where
  type : IntType
  number : Int
deriving DecidableEq, Repr

namespace Value

/-- An operation on two values, in the type that they have in common. -/
def combine (op : IntType → Int → Int → Except Fault Int) (x y : Value) :
    Except Fault Value :=
  let t := x.type.join y.type
  (op t (t.convert x.number) (t.convert y.number)).map (⟨t, ·⟩)

/-- A comparison of two values, in the type that they have in common. -/
def compare (holds : Int → Int → Bool) (x y : Value) : Bool :=
  let t := x.type.join y.type
  holds (t.convert x.number) (t.convert y.number)

end Value

/-- The type of a decimal constant with its sign. The sign is an operator: the
constant without it has to fit. -/
def numberType? (x : Int) : Option IntType :=
  if -2 ^ 31 < x ∧ x < 2 ^ 31 then some .int
  else if -2 ^ 63 < x ∧ x < 2 ^ 63 then some ⟨64, true⟩
  else none

/-- The type of a limit: what its suffix says, else the first type that it
fits. -/
def limitType (limit : Literal) : IntType :=
  if limit.text.toList.contains 'U' then ⟨64, false⟩
  else if limit.text.toList.contains 'L' then ⟨64, true⟩
  else if IntType.int.Holds limit.value then .int
  else ⟨32, false⟩

-- ============================================================== bodies

/-- What the body of an intrinsic works on. -/
structure Frame where
  property : Property
  /-- The bits of the field, as a number without a sign. -/
  stored : Int
  /-- Whether the field has been made available under its signed type. -/
  aliased : Bool := false
  /-- The products and sums that the field was to hold so far. -/
  computed : List Int := []

namespace Frame

/-- The field as an operand. -/
def read (frame : Frame) (signed : Bool) : Except Fault Value :=
  let t := frame.property.type.reading signed
  if frame.property.type.isInteger then .ok ⟨t.promote, t.convert frame.stored⟩
  else .error .pointer

/-- The field with a number put into it. -/
def store (frame : Frame) (x : Int) : Frame :=
  { frame with stored := (frame.property.type.reading false).convert x }

end Frame

/-- What an operand is. -/
def Operand.eval (frame : Frame) (matched : Int32) :
    Operand → Except Fault Value
  | .field name =>
    if name = frame.property.name then frame.read false else .error .unbound
  | .aliased => if frame.aliased then frame.read true else .error .unbound
  | .matched => .ok ⟨.int, matched.toInt⟩
  | .number x =>
    match numberType? x.toInt with
    | some t => .ok ⟨t, x.toInt⟩
    | none => .error .untyped
  | .limit literal => .ok ⟨limitType literal, literal.value⟩
  | .quotient a b => do
      (← a.eval frame matched).combine divide (← b.eval frame matched)
  | .difference a b => do
    (← a.eval frame matched).combine (fun t x y => result t (x - y))
      (← b.eval frame matched)
  | .masked a b => do
    (← a.eval frame matched).combine (bitwise Nat.land)
      (← b.eval frame matched)
  | .equal a b => do
    return ⟨.int, if (← a.eval frame matched).compare (· == ·)
      (← b.eval frame matched) then 1
      else 0⟩

/-- What an assignment puts into its target. -/
def Assignment.apply (target value : Value) : Assignment → Except Fault Value
  | .set => .ok value
  | .keepBits => target.combine (bitwise Nat.land) value
  | .setBits => target.combine (bitwise Nat.lor) value
  | .multiply => target.combine (fun t x y => result t (x * y)) value
  | .add => target.combine (fun t x y => result t (x + y)) value

/-- The product or sum, as a number, that an assignment is to compute. -/
def Assignment.intended? (target value : Value) : Assignment → Option Int
  | .multiply => some (target.number * value.number)
  | .add => some (target.number + value.number)
  | _ => none

/-- Whether the comparison holds that makes an intrinsic refuse. -/
def Refusal.applies (frame : Frame) (matched : Int32) (refusal : Refusal) :
    Except Fault Bool := do
  let left ← refusal.left.eval frame matched
  let right ← refusal.right.eval frame matched
  return left.compare (fun x y => if refusal.ifGreater then y < x else x < y)
    right

/-- What a body answers, and the frame that it leaves behind. -/
def run (matched : Int32) : List Step → Frame → Except Fault (Int × Frame)
  | [], _ => .error .unanswered
  | .blank :: rest, frame => run matched rest frame
  | .comment _ :: rest, frame => run matched rest frame
  | .alias type field :: rest, frame =>
    if frame.property.type.signed? = some type
      ∧ field = frame.property.name then
      run matched rest { frame with aliased := true }
    else .error .unbound
  | .assign target assignment value :: rest, frame => do
    let old ← target.eval frame matched
    let operand ← value.eval frame matched
    let new ← assignment.apply old operand
    run matched rest { frame.store new.number with
      computed := frame.computed ++ (assignment.intended? old operand).toList }
  | .refuseIf refusal :: rest, frame => do
    if ← refusal.applies frame matched then return (1, frame)
    run matched rest frame
  | .refuseBySign nonnegative negative :: rest, frame => do
    if ← (if 0 ≤ matched.toInt then nonnegative else negative).applies
      frame matched then
      return (1, frame)
    run matched rest frame
  | .answer value :: _, frame => do
    return (IntType.int.convert (← value.eval frame matched).number, frame)

-- ======================================================== operations

variable {t : IntType} {x : Int}

/-- A number that the type holds is the result. -/
theorem result_of_holds (h : t.Holds x) (hbits : 0 < t.bits) :
    result t x = .ok x := by
  unfold result
  rw [if_neg fun hover => hover.2 h, h.convert hbits]

theorem result_of_unsigned (h : t.signed = false) :
    result t x = .ok (t.convert x) := by
  unfold result
  rw [if_neg fun hover => Bool.false_ne_true (h.symm.trans hover.1)]

/-- An operation that respects remainders is exact, if its result and, with a
sign, its operands are numbers of the type that the operands have in common. -/
theorem combine_exact {op : Int → Int → Int}
    (hmod : ∀ (x y : Int) (n : Nat), op (x % 2 ^ n) (y % 2 ^ n) % 2 ^ n
      = op x y % 2 ^ n)
    {v w : Value} (ht : v.type.join w.type = t) (hbits : 0 < t.bits)
    (hresult : t.Holds (op v.number w.number))
    (hsigned : t.signed = true → t.Holds v.number ∧ t.Holds w.number) :
    v.combine (fun t x y => result t (op x y)) w
        = .ok ⟨t, op v.number w.number⟩ := by
  unfold Value.combine
  rw [ht]
  dsimp only
  cases hsign : t.signed with
  | true =>
      obtain ⟨hv, hw⟩ := hsigned hsign
      rw [hv.convert hbits, hw.convert hbits, result_of_holds hresult hbits]
      rfl
  | false =>
      have hmod := hmod v.number w.number t.bits
      have hexact := hresult.convert hbits
      unfold IntType.convert at hexact ⊢
      rw [hsign] at hexact ⊢
      simp only [Bool.false_eq_true, if_false] at hexact ⊢
      rw [result_of_unsigned hsign]
      unfold IntType.convert
      rw [hsign, if_neg Bool.false_ne_true, hmod, hexact]
      rfl

/-- Without a sign there is always a result. -/
theorem combine_unsigned {op : Int → Int → Int} {v w : Value}
    (h : (v.type.join w.type).signed = false) :
    ∃ new, v.combine (fun t x y => result t (op x y)) w = .ok new := by
  unfold Value.combine
  dsimp only
  rw [result_of_unsigned h]
  exact ⟨_, rfl⟩

/-- Comparing numbers of the type that they have in common compares the
numbers. -/
theorem compare_exact {holds : Int → Int → Bool} {v w : Value}
    (ht : v.type.join w.type = t) (hbits : 0 < t.bits) (hv : t.Holds v.number)
    (hw : t.Holds w.number) :
    v.compare holds w = holds v.number w.number := by
  unfold Value.compare
  rw [ht]
  dsimp only
  rw [hv.convert hbits, hw.convert hbits]

/-- The products and sums so far stay on the account. -/
theorem computed_of_run {matched : Int32} {steps : List Step} {frame : Frame}
    {ending : Int × Frame} (h : run matched steps frame = .ok ending) :
    frame.computed ⊆ ending.2.computed := by
  induction steps generalizing frame with
  | nil => cases h
  | cons step steps ih =>
      cases step with
      | blank => exact ih h
      | comment text => exact ih h
      | «alias» type field =>
          unfold run at h
          split at h
          · exact @ih { frame with aliased := true } h
          · cases h
      | assign target assignment value =>
          obtain ⟨old, -, h⟩ := ok_of_bind h
          obtain ⟨operand, -, h⟩ := ok_of_bind h
          obtain ⟨new, -, h⟩ := ok_of_bind h
          exact fun x hx => ih h (List.mem_append_left _ hx)
      | refuseIf refusal =>
          obtain ⟨refuses, -, h⟩ := ok_of_bind h
          cases refuses with
          | true =>
              obtain rfl := Except.ok.inj h
              exact List.Subset.refl _
          | false => exact ih h
      | refuseBySign nonnegative negative =>
          obtain ⟨refuses, -, h⟩ := ok_of_bind h
          cases refuses with
          | true =>
              obtain rfl := Except.ok.inj h
              exact List.Subset.refl _
          | false => exact ih h
      | answer value =>
          obtain ⟨answer, -, h⟩ := ok_of_bind h
          obtain rfl := Except.ok.inj h
          exact List.Subset.refl _

end Program

end Bytewise

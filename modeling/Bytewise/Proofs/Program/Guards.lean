/-
Checks of a field.

The bodies that change a field by arithmetic check what they compute
before they do. A check compares the field with constants (`Limits`,
`numberType?`), in a type that both have in common; there a negative
constant may become a great one (`Wraps`). What a check does to a body is
told by `Guards`: the body goes on, or it refuses and leaves the field as
it is.
-/
import Bytewise.Proofs.Program.Arithmetic

namespace Bytewise.Program

-- =========================================================== constants

/-- The limits of a type are its extremes. The greater one is a constant of the
type that a field is promoted to, and so is the lesser one, but for a zero. -/
structure Limits (t : IntType) (low high : Literal) : Prop where
  least : low.value = t.least
  greatest : high.value = t.greatest
  highType : limitType high = t.promote
  lowType : limitType low = if t = ⟨32, false⟩ then .int else t.promote

/-- A field has limits only if it is an integer. -/
theorem limits_of_limits? {type : FieldType} {signed : Bool}
    {low high : Literal} (h : type.limits? signed = some (low, high)) :
    type.isInteger = true ∧ Limits (type.reading signed) low high := by
  cases type with
  | ptr => cases h
  | _ =>
      cases signed <;> cases h <;>
        exact ⟨rfl, by decide, by decide, by decide, by decide⟩

/-- The lower limit of a signed type is written in that type. -/
theorem Limits.lowType_of_signed {t : IntType} {low high : Literal}
    (h : Limits t low high)
    (hsigned : t.signed = true) : limitType low = t.promote := by
  rw [h.lowType, if_neg]
  intro heq
  exact absurd (hsigned.symm.trans (congrArg IntType.signed heq)) (by decide)

/-- A negative constant that is brought to a type without a sign, and so
becomes a great one: beside a field of 64 bits all are, and beside one of 32
bits those that fit an `int`. -/
def Wraps (t : IntType) (x : Int) : Prop :=
  t.signed = false ∧ x < 0 ∧ (t.bits = 64 ∨ t.bits = 32 ∧ -2 ^ 31 < x)

variable {type : FieldType} {signed : Bool} {x : Int} {u : IntType}

/-- The type of a number holds it, is signed and is no smaller than `int`. -/
theorem numberType?_holds (h : numberType? x = some u) :
    u.Holds x ∧ u.signed = true ∧ 32 ≤ u.bits := by
  unfold numberType? at h
  split at h
  · obtain rfl := Option.some.inj h
    refine ⟨?_, rfl, by decide⟩
    simp [IntType.Holds, IntType.least, IntType.greatest, IntType.int]
    omega
  · split at h
    · obtain rfl := Option.some.inj h
      refine ⟨?_, rfl, by decide⟩
      simp [IntType.Holds, IntType.least, IntType.greatest]
      omega
    · cases h

/-- Joined with the type of a number, any type has bits. -/
theorem bits_beside (h : numberType? x = some u) (t : IntType) :
    0 < (t.join u).bits := by
  have hle := IntType.le_bits_join u t
  rw [IntType.join_comm] at hle
  exact Nat.lt_of_lt_of_le (by decide) ((numberType?_holds h).2.2.trans hle)

/-- A promoted type is no smaller than `int`. -/
theorem join_int :
    (type.reading signed).promote.join .int
    = (type.reading signed).promote := by
  cases type <;> cases signed <;> rfl

/-- The type that a field and a constant have in common has no sign where a
negative constant wraps. -/
theorem wraps_iff (h : numberType? x = some u) : Wraps (type.reading signed) x
    ↔ x < 0 ∧ ((type.reading signed).promote.join u).signed = false := by
  unfold numberType? at h
  split at h
  · obtain rfl := Option.some.inj h
    cases type <;> cases signed <;>
      simp [Wraps, FieldType.reading, FieldType.bits, IntType.promote,
        IntType.join, IntType.int]
    omega
  · split at h
    · obtain rfl := Option.some.inj h
      cases type <;> cases signed <;>
        simp [Wraps, FieldType.reading, FieldType.bits, IntType.promote,
          IntType.join, IntType.int]
      omega
    · cases h

/-- A constant that does not wrap keeps its value beside a field. -/
theorem number_beside (h : numberType? x = some u)
    (hwraps : ¬ Wraps (type.reading signed) x) :
    ((type.reading signed).promote.join u).Holds x := by
  rw [wraps_iff h] at hwraps
  rw [IntType.join_comm] at hwraps ⊢
  refine (numberType?_holds h).1.join _ ?_
  rcases lt_or_ge x 0 with hneg | hpos
  · exact Or.inr
      (Bool.of_not_eq_false fun hunsigned => hwraps ⟨hneg, hunsigned⟩)
  · exact Or.inl hpos

/-- A field without a sign takes part with a constant that wraps in its own
type, and the constant becomes more than half of the greatest number. -/
theorem convert_of_wraps (hu : numberType? x = some u)
    (hwraps : Wraps (type.reading signed) x) :
    (type.reading signed).promote.join u = type.reading signed
      ∧ (type.reading signed).promote = type.reading signed
      ∧ (type.reading signed).convert x = x + 2 ^ type.bits
      ∧ (type.reading signed).greatest < 2 * (x + 2 ^ type.bits) := by
  obtain ⟨hunsigned, hneg, hwide⟩ := hwraps
  obtain rfl : signed = false := hunsigned
  have hwide : type.bits = 64 ∨ type.bits = 32 ∧ -2 ^ 31 < x := hwide
  have hnarrow : ¬ type.bits < 32 := by omega
  have hpromote : (type.reading false).promote = type.reading false :=
    if_neg hnarrow
  -- the constant is not wider than the field, nor less than the least number
  -- of its width
  obtain ⟨hjoin, hleast⟩ : (type.reading false).join u = type.reading false
      ∧ -2 ^ (type.bits - 1) ≤ x := by
    show IntType.join ⟨type.bits, false⟩ u = ⟨type.bits, false⟩ ∧ _
    unfold numberType? at hu
    rcases hwide with hbits | ⟨hbits, hx⟩
    · rw [hbits]
      split at hu
      · obtain rfl := Option.some.inj hu
        exact ⟨rfl, by omega⟩
      · split at hu
        · obtain rfl := Option.some.inj hu
          exact ⟨rfl, by omega⟩
        · cases hu
    · rw [hbits]
      rw [if_pos ⟨hx, by omega⟩] at hu
      obtain rfl := Option.some.inj hu
      exact ⟨rfl, by omega⟩
  have hpow := IntType.two_pow_pred type.bits_pos
  refine ⟨hpromote.symm ▸ hjoin, hpromote, ?_, ?_⟩
  · show x % 2 ^ type.bits = _
    rw [← Int.add_emod_right]
    exact Int.emod_eq_of_lt (by omega) (by omega)
  · show 2 ^ type.bits - 1 < 2 * (x + 2 ^ type.bits)
    omega

-- ============================================================== fields

/-- The field, as the body of a multiply-and-add names it. -/
def fieldOperand (property : Property) (signed : Bool) : Operand :=
  if signed then .aliased else .field property.name

/-- A body begins with the bits of the field. -/
def Frame.start (property : Property) (v : Int) : Frame where
  property
  stored := (property.type.reading false).convert v

/-- A body has come to where the field holds a number. -/
def Frame.holding (property : Property) (signed : Bool) (x : Int)
    (computed : List Int) : Frame :=
  ⟨property, (property.type.reading false).convert x, signed, computed⟩

variable {property : Property} {matched : Int32} {v : Int}
  {computed : List Int} {rest : List Step}

/-- A number of the field is read back as it was stored. -/
theorem convert_stored (hv : (property.type.reading signed).Holds v) :
    (property.type.reading signed).convert
        ((property.type.reading false).convert v) = v := by
  have hconvert := IntType.convert_convert (t := property.type.reading signed)
    (x := v) signed
  rw [show (property.type.reading signed).convert
    ((property.type.reading false).convert v)
    = (property.type.reading signed).convert v from hconvert,
      hv.convert property.type.bits_pos]

/-- The field reads as the value that it holds. -/
theorem eval_field (hint : property.type.isInteger = true)
    (hv : (property.type.reading signed).Holds v) :
    (fieldOperand property signed).eval (.holding property signed v computed)
      matched
      = .ok ⟨(property.type.reading signed).promote, v⟩ := by
  have hread : (Frame.holding property signed v computed).read signed
      = .ok ⟨(property.type.reading signed).promote, v⟩ := by
    unfold Frame.read Frame.holding
    dsimp only
    rw [if_pos hint, convert_stored hv]
  cases signed with
  | true => exact hread
  | false =>
      show (if property.name = property.name then _ else _) = _
      rw [if_pos rfl]
      exact hread

/-- The steps come from one frame to another if the condition holds, and else
refuse in the first. -/
structure Guards (matched : Int32) (steps : List Step) (frame next : Frame)
    (condition : Prop) :
    Prop where
  passed : condition → ∀ rest, run matched (steps ++ rest) frame
    = run matched rest next
  refused : ¬ condition → ∀ rest, run matched (steps ++ rest) frame
    = .ok (1, frame)

namespace Guards

variable {steps more : List Step} {frame next : Frame} {p q : Prop}

/-- Two conditions, checked in one frame. -/
theorem append (h : Guards matched steps frame frame p)
    (hmore : p → Guards matched more frame next q) :
    Guards matched (steps ++ more) frame next (p ∧ q) where
  passed hboth rest := by
    rw [List.append_assoc, h.passed hboth.1, (hmore hboth.1).passed hboth.2]
  refused hnot rest := by
    rw [List.append_assoc]
    by_cases hp : p
    · rw [h.passed hp, (hmore hp).refused fun hq => hnot ⟨hp, hq⟩]
    · exact h.refused hp _

/-- Guards for one condition are guards for another that says the same. -/
theorem congr (h : Guards matched steps frame next p) (hpq : p ↔ q) :
    Guards matched steps frame next q :=
  propext hpq ▸ h

theorem nil : Guards matched [] frame frame True where
  passed _ _ := rfl
  refused hnot := absurd trivial hnot

/-- A step that ends the body or is passed. -/
theorem of_run {refuses : Bool} (h : ∀ rest, run matched (steps ++ rest) frame
      = if refuses then .ok (1, frame) else run matched rest frame) :
    Guards matched steps frame frame (refuses = false) where
  passed hpass rest := by rw [h, hpass, if_neg Bool.false_ne_true]
  refused hnot rest := by rw [h, Bool.of_not_eq_false hnot, if_pos rfl]

/-- A refusal guards that it does not apply. -/
theorem refuseIf {refusal : Refusal} {refuses : Bool}
    (h : refusal.applies frame matched = .ok refuses) :
    Guards matched [.refuseIf refusal] frame frame (refuses = false) :=
  of_run fun rest => by
    show (refusal.applies frame matched >>= _) = _
    rw [h]
    cases refuses <;> rfl

theorem refuseBySign {nonnegative negative : Refusal} {refuses : Bool}
    (h : (if 0 ≤ matched.toInt then nonnegative else negative).applies frame
      matched
      = .ok refuses) :
    Guards matched [.refuseBySign nonnegative negative] frame frame
        (refuses = false) :=
  of_run fun rest => by
    show (Refusal.applies frame matched _ >>= _) = _
    rw [h]
    cases refuses <;> rfl

theorem comment (text : String) (h : Guards matched steps frame next p) :
    Guards matched (.comment text :: steps) frame next p :=
  ⟨h.passed, h.refused⟩

theorem blank (h : Guards matched steps frame next p) :
    Guards matched (.blank :: steps) frame next p :=
  ⟨h.passed, h.refused⟩

end Guards

/-- A refusal that looks at the field compares the value that it holds. -/
theorem applies_field (hint : property.type.isInteger = true)
    (hv : (property.type.reading signed).Holds v) {right : Operand} {w : Value}
    (greater : Bool)
    (hright : right.eval (.holding property signed v computed) matched
      = .ok w) :
    Refusal.applies (.holding property signed v computed) matched
        ⟨fieldOperand property signed, greater, right⟩
      = .ok (Value.compare (fun x y => if greater then y < x else x < y)
          ⟨(property.type.reading signed).promote, v⟩ w) := by
  unfold Refusal.applies
  dsimp only
  rw [eval_field hint hv, hright]
  rfl

/-- Comparing the field with a number of the type that both have in common. -/
theorem applies_exact (hint : property.type.isInteger = true)
    (hv : (property.type.reading signed).Holds v) {right : Operand} {w : Value}
    (greater : Bool) {t : IntType}
    (hright : right.eval (.holding property signed v computed) matched = .ok w)
    (ht : (property.type.reading signed).promote.join w.type = t)
    (hbits : 0 < t.bits) (hheld : t.Holds v) (hw : t.Holds w.number) :
    Refusal.applies (.holding property signed v computed) matched
        ⟨fieldOperand property signed, greater, right⟩
      = .ok (if greater then w.number < v else v < w.number) := by
  rw [applies_field hint hv greater hright, compare_exact ht hbits hheld hw]

/-- An assignment that is exact puts its result into the field and on the
account. -/
theorem run_assign (hint : property.type.isInteger = true)
    (hv : (property.type.reading signed).Holds v) {assignment : Assignment}
    {value : Operand} {w new : Value}
    (hvalue : value.eval (.holding property signed v computed) matched = .ok w)
    (happly : assignment.apply ⟨(property.type.reading signed).promote, v⟩ w
      = .ok new)
    {exact : Int}
    (hexact : assignment.intended? ⟨(property.type.reading signed).promote, v⟩
      w = some exact) :
    run matched
        (.assign (fieldOperand property signed) assignment value :: rest)
        (.holding property signed v computed)
      = run matched rest
          (.holding property signed new.number (computed ++ [exact])) := by
  show ((fieldOperand property signed).eval _ _ >>= _) = _
  rw [eval_field hint hv]
  show (value.eval _ _ >>= _) = _
  rw [hvalue]
  show (assignment.apply _ _ >>= _) = _
  rw [happly]
  show run matched rest
    { Frame.store _ _ with computed := _ ++ Option.toList _ } = _
  rw [hexact]
  rfl

end Bytewise.Program
